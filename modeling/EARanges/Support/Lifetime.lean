import Mathlib.Logic.Function.Basic

/-!
# Objects that live in places

A place has room for one object, dead or alive, and carries a note its owner keeps about it.
Constructing and assigning may throw: the plan says for each attempt in turn whether it does,
and what it then leaves in its target and in a source that was to be moved from. Touching a
dead object halts the run. `Ensures` speaks about all plans at once; its rules say what each
step needs and leaves.
-/
namespace EARanges.Support.Lifetime

/-- Why a run does not return: an object has thrown, a dead object was touched, an assertion
failed, or there is no such program. -/
inductive Halt where
  | exception | deadAccess | assertion | illFormed
  deriving DecidableEq, Repr

structure Slot (ν α : Type) where
  cell : Option α
  note : ν
  deriving DecidableEq, Repr

/-- An attempt that throws is `some (x, y)`, where `x` is left in the target, `y` in the
source. -/
structure Memory (ι ν α : Type) where
  slot : ι → Slot ν α
  plan : List (Option (α × α))

abbrev Effect (ι ν α β : Type) := EStateM Halt (Memory ι ν α) β

inductive Transfer where
  | copy | move
  deriving DecidableEq, Repr

/-- The operations and traits of a type; `husk` is what a move leaves behind, `selfMoved` what
an assignment of a moved object to itself leaves. -/
structure ElementType (α : Type) where
  constructible : Transfer → Bool
  assignable : Transfer → Bool
  triviallyConstructible : Transfer → Bool
  triviallyAssignable : Transfer → Bool
  triviallyDestructible : Bool
  adlSwappable : Bool
  husk : α → α
  selfMoved : α → α

/-- What an object is constructed or assigned from: an object elsewhere, or the one in a
place, as an lvalue or as an rvalue. -/
inductive Arg (ι α : Type) where
  | value (x : α)
  | copyOf (i : ι)
  | moveOf (i : ι)
  deriving DecidableEq, Repr

variable {ι ν α β γ : Type}

/-- The next attempt: `none` if it succeeds. -/
def attempt : Effect ι ν α (Option (α × α)) := do
  let m ← get
  match m.plan with
  | [] => pure none
  | o :: plan => do
    set { m with plan }
    pure o

def setSlots (f : (ι → Slot ν α) → ι → Slot ν α) : Effect ι ν α Unit :=
  modify fun m => { m with slot := f m.slot }

def noteAt (i : ι) : Effect ι ν α ν := do return ((← get).slot i).note

/-- The object at `i`, which must be alive. -/
def access (i : ι) : Effect ι ν α α := do
  let m ← get
  match (m.slot i).cell with
  | some x => pure x
  | none => throw .deadAccess

def Transfer.of (i : ι) : Transfer → Arg ι α
  | .copy => .copyOf i
  | .move => .moveOf i

namespace Arg

def lookup (w : ι → Slot ν α) : Arg ι α → Option α
  | .value x => some x
  | .copyOf i | .moveOf i => (w i).cell

theorem lookup_of (w : ι → Slot ν α) (i : ι) (t : Transfer) :
    (t.of i).lookup w = (w i).cell := by
  cases t <;> rfl

def fetch : Arg ι α → Effect ι ν α α
  | .value x => pure x
  | .copyOf i | .moveOf i => access i

end Arg

section Steps

variable [DecidableEq ι]

/-- The slots once the object at `i` is `c`. -/
def withCell (w : ι → Slot ν α) (i : ι) (c : Option α) : ι → Slot ν α :=
  Function.update w i ⟨c, (w i).note⟩

@[simp] theorem withCell_note (w : ι → Slot ν α) (i j : ι) (c : Option α) :
    (withCell w i c j).note = (w j).note := by
  by_cases hj : j = i
  · rw [hj, withCell, Function.update_self]
  · rw [withCell, Function.update_of_ne hj]

theorem withCell_of_ne {w : ι → Slot ν α} {i j : ι} {c : Option α} (hj : j ≠ i) :
    withCell w i c j = w j :=
  Function.update_of_ne hj ..

theorem withCell_self (w : ι → Slot ν α) (i : ι) (c : Option α) :
    withCell w i c i = ⟨c, (w i).note⟩ :=
  Function.update_self ..

/-- The slots once `x` is left of an object that was moved from. -/
def Arg.left (w : ι → Slot ν α) (x : α) : Arg ι α → ι → Slot ν α
  | .moveOf i => withCell w i (some x)
  | _ => w

@[simp] theorem Arg.left_note (w : ι → Slot ν α) (x : α) (a : Arg ι α) (j : ι) :
    (a.left w x j).note = (w j).note := by
  cases a with
  | value _ | copyOf _ => rfl
  | moveOf i => exact withCell_note w i j (some x)

def setNote (i : ι) (n : ν) : Effect ι ν α Unit :=
  setSlots fun w => Function.update w i ⟨(w i).cell, n⟩

theorem Arg.lookup_update {w : ι → Slot ν α} {i : ι} {c : Slot ν α} {a : Arg ι α}
    (hcopy : a ≠ .copyOf i) (hmove : a ≠ .moveOf i) :
    a.lookup (Function.update w i c) = a.lookup w := by
  cases a with
  | value _ => rfl
  | copyOf j =>
    have hj : j ≠ i := fun h => hcopy (by rw [h])
    exact congrArg Slot.cell (Function.update_of_ne hj ..)
  | moveOf j =>
    have hj : j ≠ i := fun h => hmove (by rw [h])
    exact congrArg Slot.cell (Function.update_of_ne hj ..)

/-- `T(a)`, an object that is not yet in a place. -/
def construct (T : ElementType α) (a : Arg ι α) : Effect ι ν α α := do
  let x ← a.fetch
  match ← attempt with
  | some (_, y) => do
    setSlots fun w => a.left w y
    throw .exception
  | none => do
    setSlots fun w => a.left w (T.husk x)
    pure x

/-- `::new(address) T(a)`. -/
def constructAt (T : ElementType α) (i : ι) (a : Arg ι α) : Effect ι ν α Unit := do
  let x ← construct T a
  setSlots fun w => withCell w i (some x)

/-- What an assignment of `a`, of value `x`, makes of the object at `i`. -/
def assigned (T : ElementType α) (i : ι) (x : α) : Arg ι α → α
  | .moveOf j => if i = j then T.selfMoved x else x
  | _ => x

theorem assigned_of_ne {T : ElementType α} {i : ι} {x : α} {a : Arg ι α} (ha : a ≠ .moveOf i) :
    assigned T i x a = x := by
  cases a with
  | value _ | copyOf _ => rfl
  | moveOf j => exact if_neg fun h => ha (by rw [h])

/-- `object = a`. -/
def assignAt (T : ElementType α) (i : ι) (a : Arg ι α) : Effect ι ν α Unit := do
  let _ ← access i
  let x ← a.fetch
  match ← attempt with
  | some (z, y) => do
    setSlots fun w => withCell (a.left w y) i (some z)
    throw .exception
  | none => setSlots fun w => withCell (a.left w (T.husk x)) i (some (assigned T i x a))

/-- `object.~T()`. -/
def destroyAt (i : ι) : Effect ι ν α Unit := do
  let _ ← access i
  setSlots fun w => withCell w i none

end Steps

/-! ## What a run ensures -/

/-- With this plan the run returns as `Q` says, or an object has thrown and `E` holds. -/
def EndsWith (run : Effect ι ν α β) (w : ι → Slot ν α) (plan : List (Option (α × α)))
    (Q : β → (ι → Slot ν α) → Prop) (E : (ι → Slot ν α) → Prop) : Prop :=
  match run ⟨w, plan⟩ with
  | .ok b m => Q b m.slot
  | .error .exception m => E m.slot
  | .error _ _ => False

/-- Whatever throws. -/
def Ensures (run : Effect ι ν α β) (w : ι → Slot ν α) (Q : β → (ι → Slot ν α) → Prop)
    (E : (ι → Slot ν α) → Prop) : Prop := ∀ plan, EndsWith run w plan Q E

section Rules

variable {w : ι → Slot ν α} {E : (ι → Slot ν α) → Prop} {T : ElementType α} {i : ι}
  {a : Arg ι α} {x z : α}

theorem ensures_pure {b : β} {Q : β → (ι → Slot ν α) → Prop} (hQ : Q b w) :
    Ensures (pure b) w Q E :=
  fun _ => hQ

theorem ensures_throw {Q : β → (ι → Slot ν α) → Prop} (hE : E w) :
    Ensures (throw .exception) w Q E :=
  fun _ => hE

theorem bind_of_ok {run : Effect ι ν α γ} {next : γ → Effect ι ν α β} {c : γ}
    {m m' : Memory ι ν α} (h : run m = .ok c m') : (run >>= next) m = next c m' := by
  simp only [Bind.bind, EStateM.bind, h]

theorem bind_of_error {run : Effect ι ν α γ} {next : γ → Effect ι ν α β} {e : Halt}
    {m m' : Memory ι ν α} (h : run m = .error e m') : (run >>= next) m = .error e m' := by
  simp only [Bind.bind, EStateM.bind, h]

theorem Ensures.bind {Q : β → (ι → Slot ν α) → Prop} {run : Effect ι ν α γ}
    {next : γ → Effect ι ν α β} (h : Ensures run w (fun c w => Ensures (next c) w Q E) E) :
    Ensures (run >>= next) w Q E := by
  intro plan
  have hrun := h plan
  unfold EndsWith at hrun ⊢
  cases heq : run ⟨w, plan⟩ with
  | ok c m =>
    rw [heq] at hrun
    rw [bind_of_ok heq]
    exact hrun m.plan
  | error e m =>
    rw [heq] at hrun
    rw [bind_of_error heq]
    cases e <;> exact hrun

theorem Ensures.mono {Q Q' : β → (ι → Slot ν α) → Prop} {E' : (ι → Slot ν α) → Prop}
    {run : Effect ι ν α β} (h : Ensures run w Q E) (hQ : ∀ b w, Q b w → Q' b w)
    (hE : ∀ w, E w → E' w) : Ensures run w Q' E' := by
  intro plan
  have hrun := h plan
  unfold EndsWith at hrun ⊢
  split at hrun
  · exact hQ _ _ hrun
  · exact hE _ hrun
  · exact hrun

theorem ensures_attempt {Q : Option (α × α) → (ι → Slot ν α) → Prop} (hQ : ∀ o, Q o w) :
    Ensures attempt w Q E := by
  intro plan
  cases plan with
  | nil => exact hQ none
  | cons o plan => exact hQ o

theorem ensures_setSlots {f : (ι → Slot ν α) → ι → Slot ν α}
    {Q : Unit → (ι → Slot ν α) → Prop} (hQ : Q () (f w)) : Ensures (setSlots f) w Q E :=
  fun _ => hQ

theorem ensures_noteAt {Q : ν → (ι → Slot ν α) → Prop} (hQ : Q (w i).note w) :
    Ensures (noteAt i) w Q E :=
  fun _ => hQ

theorem access_eq (plan : List (Option (α × α))) (i : ι) :
    access i ⟨w, plan⟩ = match (w i).cell with
      | some x => .ok x ⟨w, plan⟩
      | none => .error .deadAccess ⟨w, plan⟩ := by
  change (match (w i).cell with
    | some x => pure x
    | none => throw .deadAccess : Effect ι ν α α) ⟨w, plan⟩ = _
  cases (w i).cell <;> rfl

theorem ensures_access {Q : α → (ι → Slot ν α) → Prop} (hi : (w i).cell = some x)
    (hQ : Q x w) : Ensures (access i) w Q E := by
  intro plan
  rw [EndsWith, access_eq, hi]
  exact hQ

theorem Arg.ensures_fetch {Q : α → (ι → Slot ν α) → Prop} (ha : a.lookup w = some x)
    (hQ : Q x w) : Ensures a.fetch w Q E := by
  cases a with
  | value y =>
    obtain rfl : y = x := Option.some.inj ha
    exact ensures_pure hQ
  | copyOf j => exact ensures_access ha hQ
  | moveOf j => exact ensures_access ha hQ

variable [DecidableEq ι]

theorem ensures_construct {Q : α → (ι → Slot ν α) → Prop} (ha : a.lookup w = some x)
    (hE : ∀ y, E (a.left w y)) (hQ : Q x (a.left w (T.husk x))) :
    Ensures (construct T a) w Q E := by
  refine Ensures.bind (Arg.ensures_fetch ha (Ensures.bind (ensures_attempt ?_)))
  rintro (_ | ⟨_, y⟩)
  · exact Ensures.bind (ensures_setSlots (ensures_pure hQ))
  · exact Ensures.bind (ensures_setSlots (ensures_throw (hE y)))

theorem ensures_constructAt {Q : Unit → (ι → Slot ν α) → Prop} (ha : a.lookup w = some x)
    (hE : ∀ y, E (a.left w y)) (hQ : Q () (withCell (a.left w (T.husk x)) i (some x))) :
    Ensures (constructAt T i a) w Q E :=
  Ensures.bind (ensures_construct ha hE (ensures_setSlots hQ))

theorem ensures_assignAt {Q : Unit → (ι → Slot ν α) → Prop} (hi : (w i).cell = some z)
    (ha : a.lookup w = some x) (hE : ∀ z y, E (withCell (a.left w y) i (some z)))
    (hQ : Q () (withCell (a.left w (T.husk x)) i (some (assigned T i x a)))) :
    Ensures (assignAt T i a) w Q E := by
  refine Ensures.bind (ensures_access hi (Ensures.bind (Arg.ensures_fetch ha ?_)))
  refine Ensures.bind (ensures_attempt ?_)
  rintro (_ | ⟨z', y⟩)
  · exact ensures_setSlots hQ
  · exact Ensures.bind (ensures_setSlots (ensures_throw (hE z' y)))

theorem ensures_destroyAt {Q : Unit → (ι → Slot ν α) → Prop} (hi : (w i).cell = some z)
    (hQ : Q () (withCell w i none)) : Ensures (destroyAt i) w Q E :=
  Ensures.bind (ensures_access hi (ensures_setSlots hQ))

theorem ensures_setNote {n : ν} {Q : Unit → (ι → Slot ν α) → Prop}
    (hQ : Q () (Function.update w i ⟨(w i).cell, n⟩)) : Ensures (setNote i n) w Q E :=
  ensures_setSlots hQ

end Rules

/-! ## Runs that go wrong -/

/-- Whatever throws, the run halts because of `e`. -/
def Halts (run : Effect ι ν α β) (w : ι → Slot ν α) (e : Halt) : Prop :=
  ∀ plan, ∃ m, run ⟨w, plan⟩ = .error e m

namespace Halts

variable {w : ι → Slot ν α} {e : Halt} {run : Effect ι ν α γ} {next : γ → Effect ι ν α β}

theorem bind (h : Halts run w e) : Halts (run >>= next) w e := by
  intro plan
  obtain ⟨m, hrun⟩ := h plan
  exact ⟨m, bind_of_error hrun⟩

theorem of_ensures (h : Ensures run w (fun c w => Halts (next c) w e) fun _ => False) :
    Halts (run >>= next) w e := by
  intro plan
  have hrun := h plan
  unfold EndsWith at hrun
  cases heq : run ⟨w, plan⟩ with
  | ok c m =>
    rw [heq] at hrun
    rw [bind_of_ok heq]
    exact hrun m.plan
  | error e' m =>
    rw [heq] at hrun
    cases e' <;> exact hrun.elim

theorem access {i : ι} (hi : (w i).cell = none) : Halts (access i) w .deadAccess := by
  intro plan
  exact ⟨_, by rw [access_eq, hi]⟩

theorem fetch {a : Arg ι α} (ha : a.lookup w = none) : Halts a.fetch w .deadAccess := by
  cases a with
  | value _ => cases ha
  | copyOf _ | moveOf _ => exact .access ha

theorem constructAt [DecidableEq ι] {T : ElementType α} {i : ι} {a : Arg ι α}
    (ha : a.lookup w = none) : Halts (constructAt T i a) w .deadAccess :=
  ((fetch ha).bind).bind

theorem not_endsWith (h : Halts run w e) (he : e ≠ .exception) (plan : List (Option (α × α)))
    (Q : γ → (ι → Slot ν α) → Prop) (E : (ι → Slot ν α) → Prop) :
    ¬EndsWith run w plan Q E := by
  obtain ⟨m, hrun⟩ := h plan
  unfold EndsWith
  rw [hrun]
  cases e
  case exception => exact absurd rfl he
  all_goals exact id

end Halts

/-! ## Flags -/

namespace Slot

def vacant : Slot Bool α := ⟨none, false⟩

def holding (x : α) : Slot Bool α := ⟨some x, true⟩

end Slot

theorem Arg.lookup_of_holding {w : ι → Slot Bool α} {i : ι} {t : Transfer} {x : α}
    (hi : w i = .holding x) : (t.of i).lookup w = some x :=
  (lookup_of w i t).trans (congrArg Slot.cell hi)

/-- Where the note is a flag: it is set exactly if the object is alive. -/
def Flagged (w : ι → Slot Bool α) : Prop := ∀ i, (w i).note = (w i).cell.isSome

section FlaggedSteps

variable [DecidableEq ι]

/-- A place with nothing in it yet, whatever the memory held. -/
def newPlace (i : ι) : Effect ι Bool α Unit :=
  setSlots fun w => Function.update w i Slot.vacant

/-- Constructs the object at `i`, then sets its flag. -/
def fill (T : ElementType α) (i : ι) (a : Arg ι α) : Effect ι Bool α Unit := do
  constructAt T i a
  setNote i true

/-- Destroys the object at `i` if its flag is set, then clears the flag. -/
def clear (i : ι) : Effect ι Bool α Unit := do
  if ← noteAt i then
    destroyAt i
    setNote i false

end FlaggedSteps

namespace Flagged

variable {w : ι → Slot Bool α} {i : ι} {a : Arg ι α} {x y : α}

theorem vacant_or_holding (h : Flagged w) (i : ι) :
    w i = Slot.vacant ∨ ∃ x, w i = Slot.holding x := by
  have hi := h i
  cases hw : w i with
  | mk cell note =>
    rw [hw] at hi
    cases cell with
    | none => exact .inl (congrArg (Slot.mk none) hi)
    | some x => exact .inr ⟨x, congrArg (Slot.mk (some x)) hi⟩

theorem alive (h : Flagged w) (hi : (w i).note = true) : ∃ x, (w i).cell = some x :=
  Option.isSome_iff_exists.mp ((h i).symm.trans hi)

variable [DecidableEq ι]

theorem update (h : Flagged w) {s : Slot Bool α} (hs : s.note = s.cell.isSome) :
    Flagged (Function.update w i s) := by
  intro j
  by_cases hj : j = i
  · subst hj
    rwa [Function.update_self]
  · rw [Function.update_of_ne hj]
    exact h j

theorem vacate (h : Flagged w) : Flagged (Function.update w i Slot.vacant) := h.update rfl

theorem hold (h : Flagged w) : Flagged (Function.update w i (Slot.holding x)) := h.update rfl

theorem withCell (h : Flagged w) (hi : (w i).note = true) : Flagged (withCell w i (some x)) :=
  h.update hi

theorem left (h : Flagged w) (ha : a.lookup w = some x) : Flagged (a.left w y) := by
  cases a with
  | value _ | copyOf _ => exact h
  | moveOf j =>
    refine h.withCell ?_
    rw [h j, show (w j).cell = some x from ha]
    rfl

end Flagged

/-- Constructs `a` at a vacant place `i`, setting its flag. -/
def Fills [DecidableEq ι] (build : Effect ι Bool α Unit) (T : ElementType α) (i : ι)
    (a : Arg ι α) : Prop :=
  ∀ ⦃w Q E x⦄, w i = Slot.vacant → a.lookup w = some x → (∀ y, E (a.left w y)) →
    Q () (Function.update (a.left w (T.husk x)) i (.holding x)) → Ensures build w Q E

section FlaggedRules

variable [DecidableEq ι] {w : ι → Slot Bool α} {Q : Unit → (ι → Slot Bool α) → Prop}
  {E : (ι → Slot Bool α) → Prop} {T : ElementType α} {i : ι} {a : Arg ι α} {x : α}

theorem fill_fills (T : ElementType α) (i : ι) (a : Arg ι α) : Fills (fill T i a) T i a := by
  intro w Q E x _ ha hE hQ
  refine Ensures.bind (ensures_constructAt ha hE (ensures_setNote ?_))
  simpa [withCell, Slot.holding] using hQ

theorem ensures_clear (hw : Flagged w) (hQ : Q () (Function.update w i .vacant)) :
    Ensures (clear i) w Q E := by
  refine Ensures.bind (ensures_noteAt ?_)
  obtain hi | ⟨x, hi⟩ := hw.vacant_or_holding i
  · rw [hi]
    refine ensures_pure ?_
    rwa [← hi, Function.update_eq_self] at hQ
  · rw [hi]
    refine Ensures.bind (ensures_destroyAt (z := x) (by rw [hi]; rfl) (ensures_setNote ?_))
    simpa [withCell, Slot.vacant] using hQ

end FlaggedRules

end EARanges.Support.Lifetime
