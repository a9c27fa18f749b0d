import EARanges.Support.Cursor

/-!
# `set_union_view`

view/set_algorithm.hpp, `set_union_cursor`. The cursor keeps one iterator into each
range and the tag `state` of the one that holds the current element; iterators are
indices. Elements of the two ranges may differ in type: `common1` and `common2` are the
conversions to the view's reference type. A `state` the constructor leaves
uninitialised is `none`, and every read of it faults.
-/
namespace EARanges.View
open EARanges.Support

structure SetUnionView (α β γ κ : Type) where
  rng1 : List α
  rng2 : List β
  pred : κ → κ → Bool
  proj1 : α → κ
  proj2 : β → κ
  common1 : α → γ
  common2 : β → γ

inductive StateT where
  | first | second
  deriving DecidableEq, Repr

/-- `set_union_cursor<IsConst, ...>`. -/
structure SetUnionCursor (isConst : Bool) where
  it1 : Nat
  it2 : Nat
  state : Option StateT
  deriving DecidableEq, Repr

namespace SetUnionView

variable {α β γ κ : Type} {k : Bool}

def satisfy (v : SetUnionView α β γ κ) (c : SetUnionCursor k) : Exec (SetUnionCursor k) :=
  if c.it1 = v.rng1.length then .ok { c with state := some .second }
  else if c.it2 = v.rng2.length then .ok { c with state := some .first }
  else do
    let x ← deref v.rng1 c.it1
    let y ← deref v.rng2 c.it2
    if v.pred (v.proj2 y) (v.proj1 x) then .ok { c with state := some .second }
    else if !v.pred (v.proj1 x) (v.proj2 y) then
      .ok { c with it2 := c.it2 + 1, state := some .first }
    else .ok { c with state := some .first }

/-- The constructor of `begin_cursor`. -/
def beginCursor (v : SetUnionView α β γ κ) : Exec (SetUnionCursor k) :=
  satisfy v { it1 := 0, it2 := 0, state := none }

/-- The converting constructor: its initialisers do not name `state`. -/
def toConst (c : SetUnionCursor false) : SetUnionCursor true :=
  { it1 := c.it1, it2 := c.it2, state := none }

def read (v : SetUnionView α β γ κ) (c : SetUnionCursor k) : Exec γ :=
  match c.state with
  | some .second => (deref v.rng2 c.it2).map v.common2
  | some .first => (deref v.rng1 c.it1).map v.common1
  | none => .error .fault

def next (v : SetUnionView α β γ κ) (c : SetUnionCursor k) : Exec (SetUnionCursor k) :=
  match c.state with
  | some .first => do
    let it1 ← incr v.rng1 c.it1
    satisfy v { c with it1 }
  | some .second => do
    let it2 ← incr v.rng2 c.it2
    satisfy v { c with it2 }
  | none => .error .fault

/-- `equal(default_sentinel)`. -/
def atEnd (v : SetUnionView α β γ κ) (c : SetUnionCursor k) : Bool :=
  c.it1 == v.rng1.length && c.it2 == v.rng2.length

def cursor (v : SetUnionView α β γ κ) : Cursor (SetUnionCursor k) γ := ⟨read v, next v⟩

/-- The invariant of a cursor: the tag is set, and the range it names has an element
left unless both ranges are exhausted. -/
structure Inv (v : SetUnionView α β γ κ) (c : SetUnionCursor k) : Prop where
  it1_le : c.it1 ≤ v.rng1.length
  it2_le : c.it2 ≤ v.rng2.length
  current : (c.state = some .first ∧ c.it1 < v.rng1.length) ∨
    (c.state = some .second ∧ (c.it1 = v.rng1.length ∨ c.it2 < v.rng2.length))

theorem satisfy_spec (v : SetUnionView α β γ κ) (c : SetUnionCursor k)
    (h1 : c.it1 ≤ v.rng1.length) (h2 : c.it2 ≤ v.rng2.length) :
    ∃ c', satisfy v c = .ok c' ∧ Inv v c' := by
  unfold satisfy
  by_cases hend1 : c.it1 = v.rng1.length
  · rw [if_pos hend1]
    exact ⟨_, rfl, h1, h2, .inr ⟨rfl, .inl hend1⟩⟩
  rw [if_neg hend1]
  have hlt1 : c.it1 < v.rng1.length := by omega
  by_cases hend2 : c.it2 = v.rng2.length
  · rw [if_pos hend2]
    exact ⟨_, rfl, h1, h2, .inl ⟨rfl, hlt1⟩⟩
  rw [if_neg hend2]
  have hlt2 : c.it2 < v.rng2.length := by omega
  obtain ⟨x, hx⟩ := deref_ok hlt1
  obtain ⟨y, hy⟩ := deref_ok hlt2
  rw [hx, hy]
  simp only [exec_bind_ok]
  split
  · exact ⟨_, rfl, h1, h2, .inr ⟨rfl, .inr hlt2⟩⟩
  · split
    · exact ⟨_, rfl, h1, hlt2, .inl ⟨rfl, hlt1⟩⟩
    · exact ⟨_, rfl, h1, h2, .inl ⟨rfl, hlt1⟩⟩

theorem Inv.of_satisfy {v : SetUnionView α β γ κ} {c c' : SetUnionCursor k}
    (h1 : c.it1 ≤ v.rng1.length) (h2 : c.it2 ≤ v.rng2.length) (hrun : satisfy v c = .ok c') :
    Inv v c' := by
  obtain ⟨c'', hsat, hinv⟩ := satisfy_spec v c h1 h2
  rw [hrun] at hsat
  cases hsat
  exact hinv

theorem Inv.step {v : SetUnionView α β γ κ} {c c' : SetUnionCursor k} (h : Inv v c)
    (hrun : next v c = .ok c') : Inv v c' := by
  unfold next at hrun
  obtain ⟨hs, hlt⟩ | ⟨hs, _⟩ := h.current
  · rw [hs] at hrun
    simp only [incr_ok hlt, exec_bind_ok] at hrun
    exact Inv.of_satisfy (c := ⟨c.it1 + 1, c.it2, some .first⟩) hlt h.it2_le hrun
  · rw [hs] at hrun
    by_cases hlt : c.it2 < v.rng2.length
    · simp only [incr_ok hlt, exec_bind_ok] at hrun
      exact Inv.of_satisfy (c := ⟨c.it1, c.it2 + 1, some .second⟩) h.it1_le hlt hrun
    · simp [incr_end (Nat.not_lt.mp hlt)] at hrun

/-- The cursors of one traversal. -/
inductive Reachable (v : SetUnionView α β γ κ) : SetUnionCursor k → Prop
  | begin {c : SetUnionCursor k} : beginCursor v = .ok c → Reachable v c
  | next {c c' : SetUnionCursor k} : Reachable v c → next v c = .ok c' → Reachable v c'

theorem Reachable.inv {v : SetUnionView α β γ κ} {c : SetUnionCursor k}
    (h : Reachable v c) : Inv v c := by
  induction h with
  | begin hrun => exact Inv.of_satisfy (Nat.zero_le _) (Nat.zero_le _) hrun
  | next _ hrun ih => exact ih.step hrun

/-- Short of the end a cursor can be read. -/
theorem Inv.read_ok {v : SetUnionView α β γ κ} {c : SetUnionCursor k} (h : Inv v c)
    (hend : atEnd v c = false) : ∃ x, read v c = .ok x := by
  have h2 := h.it2_le
  unfold read
  obtain ⟨hs, hlt⟩ | ⟨hs, hlt⟩ := h.current
  · obtain ⟨x, hx⟩ := deref_ok hlt
    rw [hs, hx]
    exact ⟨_, rfl⟩
  · have hlt2 : c.it2 < v.rng2.length := by
      simp only [atEnd, Bool.and_eq_false_iff, beq_eq_false_iff_ne] at hend
      omega
    obtain ⟨y, hy⟩ := deref_ok hlt2
    rw [hs, hy]
    exact ⟨_, rfl⟩

/-- At the end nothing more can be done with it. -/
theorem Inv.stopped {v : SetUnionView α β γ κ} {c : SetUnionCursor k} (h : Inv v c)
    (hend : atEnd v c = true) : read v c = .error .fault ∧ next v c = .error .fault := by
  simp only [atEnd, Bool.and_eq_true, beq_iff_eq] at hend
  have hs : c.state = some .second := by
    obtain ⟨_, hlt⟩ | ⟨hs, _⟩ := h.current
    · omega
    · exact hs
  unfold read next
  rw [hs]
  simp only [deref_end (Nat.le_of_eq hend.2.symm), incr_end (Nat.le_of_eq hend.2.symm)]
  exact ⟨rfl, rfl⟩

/-- The converted cursor has lost its tag, so it can be used nowhere. -/
theorem toConst_stopped (v : SetUnionView α β γ κ) (c : SetUnionCursor false) :
    read v (toConst c) = .error .fault ∧ next v (toConst c) = .error .fault := ⟨rfl, rfl⟩

/-- The converted cursor reads and steps as the mutable one. -/
def ConversionLaw (v : SetUnionView α β γ κ) (c : SetUnionCursor false) : Prop :=
  Cursor.SameReads (cursor v) (cursor v) c (toConst c)

theorem conversionLaw_iff {v : SetUnionView α β γ κ} {c : SetUnionCursor false}
    (h : Reachable v c) : ConversionLaw v c ↔ atEnd v c = true := by
  constructor
  · intro hsame
    have hread : read v c = read v (toConst c) := hsame.read_eq
    rw [(toConst_stopped v c).1] at hread
    cases hend : atEnd v c with
    | true => rfl
    | false =>
      obtain ⟨x, hx⟩ := h.inv.read_ok hend
      rw [hx] at hread
      cases hread
  · exact fun hend => Cursor.sameReads_of_stopped (h.inv.stopped hend) (toConst_stopped v c)

end SetUnionView

end EARanges.View
