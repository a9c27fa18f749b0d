import EARanges.Support.Lifetime

/-!
# `optional`

utility/optional.hpp, for an object type. An optional is a place for the object `data_` with
the flag `engaged_` as its note. Its layers (`optional_copy`, `optional_move` and the two for
assignment) keep the defaulted member, which copies the storage, where the element's own is
trivial. A trivially destructible element is dead as soon as the flag is cleared: `reset` has
no destructor to run.
-/
namespace EARanges.Utility.Optional
open EARanges.Support.Lifetime

variable {ι α : Type} [DecidableEq ι]

/-- `optional_storage<T>::reset`. -/
def reset (T : ElementType α) (i : ι) : Effect ι Bool α Unit :=
  -- engaged_ = false
  if T.triviallyDestructible then newPlace i
  else clear i

def constructFrom (T : ElementType α) (i : ι) (a : Arg ι α) : Effect ι Bool α Unit := do
  -- EARANGES_EXPECT(!engaged_)
  if ← noteAt i then throw .assertion
  fill T i a

/-- `assign_from`, where `*static_cast<U &&>(that)` is `that`. -/
def assignFrom (T : ElementType α) (i j : ι) (that : Arg ι α) : Effect ι Bool α Unit := do
  if !(← noteAt j) then reset T i
  else if ← noteAt i then assignAt T i that
  else fill T i that

/-- The defaulted copies and moves of `optional_storage`. -/
def copyStorage (i j : ι) : Effect ι Bool α Unit :=
  setSlots fun w => Function.update w i (w j)

/-- A constructor from another optional, in its own layer or defaulted. -/
def constructWith (how : Transfer) (T : ElementType α) (i j : ι) : Effect ι Bool α Unit :=
  if T.triviallyConstructible how then copyStorage i j
  else do
    newPlace i
    if ← noteAt j then constructFrom T i (how.of j)

/-- An assignment from another optional, in its own layer or defaulted. -/
def assignWith (how : Transfer) (T : ElementType α) (i j : ι) : Effect ι Bool α Unit :=
  if T.triviallyConstructible how && T.triviallyAssignable how then copyStorage i j
  else assignFrom T i j (how.of j)

/-- `optional(optional const &)`. -/
def copyConstruct (T : ElementType α) (i j : ι) : Effect ι Bool α Unit :=
  constructWith .copy T i j

/-- `optional(optional &&)`. -/
def moveConstruct (T : ElementType α) (i j : ι) : Effect ι Bool α Unit :=
  constructWith .move T i j

/-- `operator=(optional const &)`. -/
def copyAssign (T : ElementType α) (i j : ι) : Effect ι Bool α Unit :=
  assignWith .copy T i j

/-- `operator=(optional &&)`. -/
def moveAssign (T : ElementType α) (i j : ι) : Effect ι Bool α Unit :=
  assignWith .move T i j

def emplace (T : ElementType α) (i : ι) (a : Arg ι α) : Effect ι Bool α Unit := do
  reset T i
  constructFrom T i a

/-- `operator=(U &&)`. -/
def assignValue (T : ElementType α) (i : ι) (a : Arg ι α) : Effect ι Bool α Unit := do
  if ← noteAt i then assignAt T i a
  else constructFrom T i a

/-- A `swap` that the element's namespace provides. -/
def adlSwap (i j : ι) : Effect ι Bool α Unit := do
  let x ← access i
  let y ← access j
  match ← attempt with
  | some (x', y') => do
    setSlots fun w => withCell (withCell w i (some x')) j (some y')
    throw .exception
  | none => setSlots fun w => withCell (withCell w i (some y)) j (some x)

/-- `concepts::exchange(t, (U &&) u)`; `nrvo` if `return tmp` constructs no other object. -/
def exchange (nrvo : Bool) (T : ElementType α) (t u : ι) : Effect ι Bool α α := do
  let tmp ← construct T (.moveOf t)
  assignAt T t (.moveOf u)
  if nrvo then pure tmp else construct T (.value tmp : Arg ι α)

/-- `ranges::swap` of two elements. -/
def swapElements (nrvo : Bool) (T : ElementType α) (i j : ι) : Effect ι Bool α Unit :=
  if T.adlSwappable then adlSwap i j
  else do
    let x ← exchange nrvo T i j
    assignAt T j (.value x)

def swap (nrvo : Bool) (T : ElementType α) (i j : ι) : Effect ι Bool α Unit :=
  if !T.adlSwappable && T.triviallyConstructible .move && T.triviallyAssignable .move then
    -- ranges::swap of the two storages
    setSlots fun w => Function.update (Function.update w i (w j)) j (w i)
  else do
    let engaged ← noteAt i
    if (← noteAt j) = engaged then
      if engaged then swapElements nrvo T i j
    else
      let src := if engaged then i else j
      let dst := if engaged then j else i
      constructFrom T dst (.moveOf src)
      reset T src

theorem constructFrom_fills (T : ElementType α) (i : ι) (a : Arg ι α) :
    Fills (constructFrom T i a) T i a := by
  intro w Q E x hi ha hE hQ
  refine Ensures.bind (ensures_noteAt ?_)
  rw [hi]
  exact fill_fills T i a hi ha hE hQ

theorem ensures_reset {T : ElementType α} {i : ι} {w : ι → Slot Bool α}
    {Q : Unit → (ι → Slot Bool α) → Prop} {E : (ι → Slot Bool α) → Prop} (hw : Flagged w)
    (hQ : Q () (Function.update w i .vacant)) : Ensures (reset T i) w Q E := by
  unfold reset
  split
  · exact ensures_setSlots hQ
  · exact ensures_clear hw hQ

end EARanges.Utility.Optional
