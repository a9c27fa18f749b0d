import EARanges.Support.Lifetime

/-!
# `semiregular_box`

utility/semiregular_box.hpp. A box is a place for the object `data_` with the flag `engaged_`
as its note. `move_assign` and `copy_assign` are overloaded on whether the element can be
assigned; the overload of `copy_assign` for an element that cannot takes `T &&`, to which the
`that.data_` of a `semiregular_box const &` does not bind.
-/
namespace EARanges.Utility.SemiregularBox
open EARanges.Support.Lifetime

variable {ι α : Type} [DecidableEq ι]

def constructFrom (T : ElementType α) (i : ι) (a : Arg ι α) : Effect ι Bool α Unit :=
  fill T i a

def reset (i : ι) : Effect ι Bool α Unit := clear i

/-- `move_assign(T && t, eastl::is_move_assignable<T>())`. -/
def moveAssignData (T : ElementType α) (i j : ι) : Effect ι Bool α Unit :=
  if T.assignable .move then assignAt T i (.moveOf j)
  else do
    reset i
    constructFrom T i (.moveOf j)

/-- The constructors from another box. -/
def constructWith (how : Transfer) (T : ElementType α) (i j : ι) : Effect ι Bool α Unit := do
  -- ch_{}, engaged_{false}
  newPlace i
  if ← noteAt j then constructFrom T i (how.of j)

/-- The assignments from another box; `inPlace` if both hold an object. -/
def assignWith (how : Transfer) (inPlace : Effect ι Bool α Unit) (T : ElementType α) (i j : ι) :
    Effect ι Bool α Unit := do
  let engaged ← noteAt i
  let thatEngaged ← noteAt j
  if engaged && thatEngaged then inPlace
  else if thatEngaged then constructFrom T i (how.of j)
  else if engaged then reset i

/-- `semiregular_box(semiregular_box &&)`. -/
def moveConstruct (T : ElementType α) (i j : ι) : Effect ι Bool α Unit :=
  constructWith .move T i j

/-- `semiregular_box(semiregular_box const &)`. -/
def copyConstruct (T : ElementType α) (i j : ι) : Effect ι Bool α Unit :=
  constructWith .copy T i j

/-- `operator=(semiregular_box &&)`. -/
def moveAssign (T : ElementType α) (i j : ι) : Effect ι Bool α Unit :=
  assignWith .move (moveAssignData T i j) T i j

/-- `operator=(semiregular_box const &)`, which compiles if the element can be assigned. -/
def copyAssign (T : ElementType α) (i j : ι) : Effect ι Bool α Unit :=
  if T.assignable .copy then assignWith .copy (assignAt T i (.copyOf j)) T i j
  else throw .illFormed

end EARanges.Utility.SemiregularBox
