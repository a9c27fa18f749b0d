import EARanges.Algorithm.SetAlgorithm
import EARanges.View.SetUnion

/-!
# The set algorithms as views

view/set_algorithm.hpp. `set_algorithm_view` holds the operands of the algorithms and a
cursor that stops at each element: `satisfy` goes to the next one, and is called when the
cursor is made and after each step. The loops of `satisfy` take a bound on their turns,
which is never reached. The cursor of `set_union_view` is in `SetUnion`.
-/
namespace EARanges.View
open EARanges.Support EARanges.Algorithm

variable {α β γ κ : Type}

/-- A bound on the turns of one `satisfy`. -/
def satisfyTurns (o : SetOperands α β κ) : Nat := o.end1 + o.end2 + 1

/-! ## The cursors -/

structure SetDifferenceCursor where
  it1 : Nat
  it2 : Nat
  deriving DecidableEq, Repr

namespace SetDifferenceCursor

def satisfy (o : SetOperands α β κ) : Nat → SetDifferenceCursor → Exec SetDifferenceCursor
  | 0, _ => .error .fuel
  | fuel + 1, c =>
    if c.it1 ≠ o.end1 then
      if c.it2 = o.end2 then .ok c
      else do
        let x ← deref o.rng1 c.it1
        let y ← deref o.rng2 c.it2
        if o.pred (o.proj1 x) (o.proj2 y) then .ok c
        else if ¬ o.pred (o.proj2 y) (o.proj1 x) then
          satisfy o fuel ⟨c.it1 + 1, c.it2 + 1⟩
        else satisfy o fuel ⟨c.it1, c.it2 + 1⟩
    else .ok c

/-- A loop over `set_difference_view`. -/
def loop (o : SetOperands α β κ) : Loop SetDifferenceCursor α where
  start := satisfy o (satisfyTurns o) ⟨0, 0⟩
  atEnd c := .ok (c.it1 == o.end1)
  read c := deref o.rng1 c.it1
  next c := do
    let it1 ← incr o.rng1 c.it1
    satisfy o (satisfyTurns o) { c with it1 }

end SetDifferenceCursor

structure SetIntersectionCursor where
  it1 : Nat
  it2 : Nat
  deriving DecidableEq, Repr

namespace SetIntersectionCursor

def satisfy (o : SetOperands α β κ) : Nat → SetIntersectionCursor → Exec SetIntersectionCursor
  | 0, _ => .error .fuel
  | fuel + 1, c =>
    if c.it1 ≠ o.end1 ∧ c.it2 ≠ o.end2 then do
      let x ← deref o.rng1 c.it1
      let y ← deref o.rng2 c.it2
      if o.pred (o.proj1 x) (o.proj2 y) then satisfy o fuel ⟨c.it1 + 1, c.it2⟩
      else if ¬ o.pred (o.proj2 y) (o.proj1 x) then .ok c
      else satisfy o fuel ⟨c.it1, c.it2 + 1⟩
    else .ok c

/-- A loop over `set_intersection_view`. -/
def loop (o : SetOperands α β κ) : Loop SetIntersectionCursor α where
  start := satisfy o (satisfyTurns o) ⟨0, 0⟩
  atEnd c := .ok (c.it1 == o.end1 || c.it2 == o.end2)
  read c := deref o.rng1 c.it1
  next c := do
    let it1 ← incr o.rng1 c.it1
    let it2 ← incr o.rng2 c.it2
    satisfy o (satisfyTurns o) ⟨it1, it2⟩

end SetIntersectionCursor

/-- The `state_t` of `set_symmetric_difference_cursor`. -/
inductive SymmetricStateT where
  | first | second | onlyFirst | onlySecond
  deriving DecidableEq, Repr

structure SetSymmetricDifferenceCursor where
  it1 : Nat
  it2 : Nat
  state : SymmetricStateT
  deriving DecidableEq, Repr

namespace SetSymmetricDifferenceCursor

def satisfy (o : SetOperands α β κ) :
    Nat → SetSymmetricDifferenceCursor → Exec SetSymmetricDifferenceCursor
  | 0, _ => .error .fuel
  | fuel + 1, c =>
    if c.it1 ≠ o.end1 then
      if c.it2 = o.end2 then .ok { c with state := .onlyFirst }
      else do
        let x ← deref o.rng1 c.it1
        let y ← deref o.rng2 c.it2
        if o.pred (o.proj1 x) (o.proj2 y) then .ok { c with state := .first }
        else if o.pred (o.proj2 y) (o.proj1 x) then .ok { c with state := .second }
        else satisfy o fuel { c with it1 := c.it1 + 1, it2 := c.it2 + 1 }
    else .ok { c with state := .onlySecond }

def read (o : SetOperands α β κ) (common1 : α → γ) (common2 : β → γ)
    (c : SetSymmetricDifferenceCursor) : Exec γ :=
  if c.state = .second ∨ c.state = .onlySecond then (deref o.rng2 c.it2).map common2
  else (deref o.rng1 c.it1).map common1

def next (o : SetOperands α β κ) (c : SetSymmetricDifferenceCursor) :
    Exec SetSymmetricDifferenceCursor :=
  match c.state with
  | .first => do
    let it1 ← incr o.rng1 c.it1
    satisfy o (satisfyTurns o) { c with it1 }
  | .onlyFirst => do
    let it1 ← incr o.rng1 c.it1
    .ok { c with it1 }
  | .second => do
    let it2 ← incr o.rng2 c.it2
    satisfy o (satisfyTurns o) { c with it2 }
  | .onlySecond => do
    let it2 ← incr o.rng2 c.it2
    .ok { c with it2 }

/-- A loop over `set_symmetric_difference_view`; `state()` of the constructor is `FIRST`. -/
def loop (o : SetOperands α β κ) (common1 : α → γ) (common2 : β → γ) :
    Loop SetSymmetricDifferenceCursor γ where
  start := satisfy o (satisfyTurns o) ⟨0, 0, .first⟩
  atEnd c := .ok (c.it1 == o.end1 && c.it2 == o.end2)
  read := read o common1 common2
  next := next o

end SetSymmetricDifferenceCursor

/-- `set_union_view` of the operands. -/
def setUnionView (o : SetOperands α β κ) (common1 : α → γ) (common2 : β → γ) :
    SetUnionView α β γ κ :=
  ⟨o.rng1, o.rng2, o.pred, o.proj1, o.proj2, common1, common2⟩

/-- A loop over `set_union_view`. -/
def SetUnionView.loop (isConst : Bool) (v : SetUnionView α β γ κ) :
    Loop (SetUnionCursor isConst) γ where
  start := v.beginCursor
  atEnd c := .ok (v.atEnd c)
  read := v.read
  next := v.next

/-! ## Difference -/

namespace SetDifferenceCursor

/-- The cursor of a turn of the merge. -/
def Stands (o : SetOperands α β κ) (s : Nat × Nat) (c : SetDifferenceCursor) : Prop :=
  c = ⟨s.1, s.2⟩ ∧ s.1 ≤ o.end1 ∧ s.2 ≤ o.end2

theorem settles (o : SetOperands α β κ) :
    SetOperands.differencePolicy.Settles o.compare o.rng1 o.rng2
      (fun fuel s => satisfy o fuel ⟨s.1, s.2⟩) (Stands o) := by
  intro fuel i j hi hj
  dsimp only
  rw [satisfy]
  rcases Nat.lt_or_eq_of_le hi with hlt1 | hend1
  · have hne1 : i ≠ o.end1 := Nat.ne_of_lt hlt1
    rw [if_pos hne1]
    rcases Nat.lt_or_eq_of_le hj with hlt2 | hend2
    · have hne2 : j ≠ o.end2 := Nat.ne_of_lt hlt2
      rw [if_neg hne2, deref_eq hlt1, exec_bind_ok, deref_eq hlt2, exec_bind_ok]
      by_cases hlt : o.pred (o.proj1 o.rng1[i]) (o.proj2 o.rng2[j]) = true
      · rw [if_pos hlt, MergePolicy.turn_lt hlt1 hlt2 (SetOperands.compare_lt hlt)]
        exact .inr ⟨nofun, _, rfl, rfl, hi, hj⟩
      rw [if_neg hlt]
      by_cases hgt : o.pred (o.proj2 o.rng2[j]) (o.proj1 o.rng1[i]) = true
      · rw [if_neg (not_not_intro hgt),
          MergePolicy.turn_gt hlt1 hlt2 (SetOperands.compare_gt hlt hgt)]
        exact .inl ⟨_, rfl, rfl⟩
      · rw [if_pos hgt, MergePolicy.turn_eq hlt1 hlt2 (SetOperands.compare_eq hlt hgt)]
        exact .inl ⟨_, rfl, rfl⟩
    · have hend2' : j = o.end2 := hend2
      rw [if_pos hend2', MergePolicy.turn_rest1 hlt1 (Nat.le_of_eq hend2.symm)]
      exact .inr ⟨nofun, _, rfl, rfl, hi, hj⟩
  · have hend1' : ¬ i ≠ o.end1 := not_not_intro hend1
    rw [if_neg hend1']
    exact .inr ⟨MergePolicy.not_skip_of_end (.inl (Nat.le_of_eq hend1.symm)), _, rfl, rfl, hi, hj⟩

theorem run_satisfy (o : SetOperands α β κ) {i j : Nat} (hi : i ≤ o.end1) (hj : j ≤ o.end2) :
    ∃ c s', satisfy o (satisfyTurns o) ⟨i, j⟩ = .ok c ∧
      Skips o.differenceTurn (i, j) s' ∧ Stands o s' c :=
  (settles o).run hi hj (Nat.lt_succ_self _)

theorem turn_stop {o : SetOperands α β κ} {i j : Nat} (h : o.differenceTurn (i, j) = .stop) :
    o.end1 ≤ i := by
  cases MergePolicy.turnCase SetOperands.differencePolicy o.compare o.rng1 o.rng2 i j with
  | lt hi hj _ hturn | gt hi hj _ hturn | eq hi hj _ hturn | rest1 hi hj hturn =>
    rw [SetOperands.differenceTurn, hturn] at h
    cases h
  | rest2 hi hj hturn | ended hi hj hturn => exact hi

theorem turn_emit {o : SetOperands α β κ} {i j : Nat} {x : α} {s' : Nat × Nat}
    (h : o.differenceTurn (i, j) = .emit x s') :
    ∃ hi : i < o.end1, x = o.rng1[i] ∧ s' = (i + 1, j) := by
  cases MergePolicy.turnCase SetOperands.differencePolicy o.compare o.rng1 o.rng2 i j with
  | lt hi hj _ hturn | rest1 hi hj hturn =>
    rw [SetOperands.differenceTurn, hturn] at h
    cases h
    exact ⟨hi, rfl, rfl⟩
  | gt hi hj _ hturn | eq hi hj _ hturn | rest2 hi hj hturn | ended hi hj hturn =>
    rw [SetOperands.differenceTurn, hturn] at h
    cases h

theorem resumes (o : SetOperands α β κ) :
    Resumes o.differenceTurn (0, 0) (loop o) (Stands o) := by
  constructor
  · exact run_satisfy o (Nat.zero_le _) (Nat.zero_le _)
  · rintro ⟨i, j⟩ c ⟨rfl, hi, hj⟩ hstop
    have hend : i = o.end1 := Nat.le_antisymm hi (turn_stop hstop)
    exact congrArg Except.ok (beq_iff_eq.mpr hend)
  · rintro ⟨i, j⟩ c x s' ⟨rfl, hi, hj⟩ hemit
    obtain ⟨hlt, rfl, rfl⟩ := turn_emit hemit
    have hnext : (loop o).next ⟨i, j⟩ = satisfy o (satisfyTurns o) ⟨i + 1, j⟩ := by
      unfold loop
      dsimp only
      rw [incr_ok hlt, exec_bind_ok]
    have hend : (loop o).atEnd ⟨i, j⟩ = .ok false :=
      congrArg Except.ok (beq_eq_false_iff_ne.mpr (Nat.ne_of_lt hlt))
    exact .of_run hend (deref_eq hlt) hnext (run_satisfy o hlt hj)

end SetDifferenceCursor

/-! ## Intersection -/

namespace SetIntersectionCursor

def Stands (o : SetOperands α β κ) (s : Nat × Nat) (c : SetIntersectionCursor) : Prop :=
  c = ⟨s.1, s.2⟩ ∧ s.1 ≤ o.end1 ∧ s.2 ≤ o.end2

theorem turn_stop {o : SetOperands α β κ} {i j : Nat} :
    o.intersectionTurn (i, j) = .stop ↔ o.end1 ≤ i ∨ o.end2 ≤ j := by
  cases MergePolicy.turnCase SetOperands.intersectionPolicy o.compare o.rng1 o.rng2 i j with
  | lt hi hj _ hturn | gt hi hj _ hturn | eq hi hj _ hturn =>
    rw [SetOperands.intersectionTurn, hturn]
    exact ⟨nofun, fun h => h.elim (absurd hi ∘ Nat.not_lt.mpr) (absurd hj ∘ Nat.not_lt.mpr)⟩
  | rest1 hi hj hturn =>
    rw [SetOperands.intersectionTurn, hturn]
    exact ⟨fun _ => .inr hj, fun _ => rfl⟩
  | rest2 hi hj hturn | ended hi hj hturn =>
    rw [SetOperands.intersectionTurn, hturn]
    exact ⟨fun _ => .inl hi, fun _ => rfl⟩

theorem turn_emit {o : SetOperands α β κ} {i j : Nat} {x : α} {s' : Nat × Nat}
    (h : o.intersectionTurn (i, j) = .emit x s') :
    ∃ (hi : i < o.end1) (_ : j < o.end2), x = o.rng1[i] ∧ s' = (i + 1, j + 1) := by
  cases MergePolicy.turnCase SetOperands.intersectionPolicy o.compare o.rng1 o.rng2 i j with
  | eq hi hj _ hturn =>
    rw [SetOperands.intersectionTurn, hturn] at h
    cases h
    exact ⟨hi, hj, rfl, rfl⟩
  | lt hi hj _ hturn | gt hi hj _ hturn | rest1 hi hj hturn | rest2 hi hj hturn
  | ended hi hj hturn =>
    rw [SetOperands.intersectionTurn, hturn] at h
    cases h

theorem settles (o : SetOperands α β κ) :
    SetOperands.intersectionPolicy.Settles o.compare o.rng1 o.rng2
      (fun fuel s => satisfy o fuel ⟨s.1, s.2⟩) (Stands o) := by
  intro fuel i j hi hj
  dsimp only
  rw [satisfy]
  by_cases hboth : i ≠ o.end1 ∧ j ≠ o.end2
  · have hlt1 : i < o.rng1.length := Nat.lt_of_le_of_ne hi hboth.1
    have hlt2 : j < o.rng2.length := Nat.lt_of_le_of_ne hj hboth.2
    rw [if_pos hboth, deref_eq hlt1, exec_bind_ok, deref_eq hlt2, exec_bind_ok]
    by_cases hlt : o.pred (o.proj1 o.rng1[i]) (o.proj2 o.rng2[j]) = true
    · rw [if_pos hlt, MergePolicy.turn_lt hlt1 hlt2 (SetOperands.compare_lt hlt)]
      exact .inl ⟨_, rfl, rfl⟩
    rw [if_neg hlt]
    by_cases hgt : o.pred (o.proj2 o.rng2[j]) (o.proj1 o.rng1[i]) = true
    · rw [if_neg (not_not_intro hgt),
        MergePolicy.turn_gt hlt1 hlt2 (SetOperands.compare_gt hlt hgt)]
      exact .inl ⟨_, rfl, rfl⟩
    · rw [if_pos hgt, MergePolicy.turn_eq hlt1 hlt2 (SetOperands.compare_eq hlt hgt)]
      exact .inr ⟨nofun, _, rfl, rfl, hi, hj⟩
  · rw [if_neg hboth]
    have hend : o.end1 ≤ i ∨ o.end2 ≤ j := by
      rcases not_and_or.mp hboth with h | h
      · exact .inl (Nat.le_of_eq (not_not.mp h).symm)
      · exact .inr (Nat.le_of_eq (not_not.mp h).symm)
    exact .inr ⟨MergePolicy.not_skip_of_end hend, _, rfl, rfl, hi, hj⟩

theorem run_satisfy (o : SetOperands α β κ) {i j : Nat} (hi : i ≤ o.end1) (hj : j ≤ o.end2) :
    ∃ c s', satisfy o (satisfyTurns o) ⟨i, j⟩ = .ok c ∧
      Skips o.intersectionTurn (i, j) s' ∧ Stands o s' c :=
  (settles o).run hi hj (Nat.lt_succ_self _)

theorem resumes (o : SetOperands α β κ) :
    Resumes o.intersectionTurn (0, 0) (loop o) (Stands o) := by
  constructor
  · exact run_satisfy o (Nat.zero_le _) (Nat.zero_le _)
  · rintro ⟨i, j⟩ c ⟨rfl, hi, hj⟩ hstop
    have hend : (i == o.end1 || j == o.end2) = true := by
      rw [Bool.or_eq_true, beq_iff_eq, beq_iff_eq]
      exact (turn_stop.mp hstop).imp (Nat.le_antisymm hi) (Nat.le_antisymm hj)
    exact congrArg Except.ok hend
  · rintro ⟨i, j⟩ c x s' ⟨rfl, hi, hj⟩ hemit
    obtain ⟨hlt1, hlt2, rfl, rfl⟩ := turn_emit hemit
    have hend : (i == o.end1 || j == o.end2) = false := by
      rw [Bool.or_eq_false_iff, beq_eq_false_iff_ne, beq_eq_false_iff_ne]
      exact ⟨Nat.ne_of_lt hlt1, Nat.ne_of_lt hlt2⟩
    have hnext : (loop o).next ⟨i, j⟩ = satisfy o (satisfyTurns o) ⟨i + 1, j + 1⟩ := by
      unfold loop
      dsimp only
      rw [incr_ok hlt1, exec_bind_ok, incr_ok hlt2, exec_bind_ok]
    exact .of_run (congrArg Except.ok hend) (deref_eq hlt1) hnext (run_satisfy o hlt1 hlt2)

end SetIntersectionCursor

/-! ## Symmetric difference -/

namespace SetSymmetricDifferenceCursor

/-- The cursor of a turn of the merge. Once one range is used up the tag stays, also at
the end. -/
inductive Stands (o : SetOperands α β κ) : Nat × Nat → SetSymmetricDifferenceCursor → Prop
  | first {i j : Nat} (hi : i < o.end1) (hj : j < o.end2)
    (hcompare : o.compare o.rng1[i] o.rng2[j] = .lt) : Stands o (i, j) ⟨i, j, .first⟩
  | second {i j : Nat} (hi : i < o.end1) (hj : j < o.end2)
    (hcompare : o.compare o.rng1[i] o.rng2[j] = .gt) : Stands o (i, j) ⟨i, j, .second⟩
  | onlyFirst {i : Nat} (hi : i ≤ o.end1) : Stands o (i, o.end2) ⟨i, o.end2, .onlyFirst⟩
  | onlySecond {j : Nat} (hj : j ≤ o.end2) : Stands o (o.end1, j) ⟨o.end1, j, .onlySecond⟩

theorem settles (o : SetOperands α β κ) (common1 : α → γ) (common2 : β → γ)
    (state : SymmetricStateT) :
    (SetOperands.symmetricPolicy common1 common2).Settles o.compare o.rng1 o.rng2
      (fun fuel s => satisfy o fuel ⟨s.1, s.2, state⟩) (Stands o) := by
  intro fuel i j hi hj
  dsimp only
  rw [satisfy]
  by_cases hend1 : i = o.end1
  · rw [if_neg (not_not_intro hend1)]
    subst hend1
    exact .inr ⟨MergePolicy.not_skip_of_end (.inl (Nat.le_refl _)), _, rfl, .onlySecond hj⟩
  rw [if_pos hend1]
  have hlt1 : i < o.rng1.length := Nat.lt_of_le_of_ne hi hend1
  by_cases hend2 : j = o.end2
  · rw [if_pos hend2, MergePolicy.turn_rest1 hlt1 (Nat.le_of_eq hend2.symm)]
    subst hend2
    exact .inr ⟨nofun, _, rfl, .onlyFirst hi⟩
  rw [if_neg hend2]
  have hlt2 : j < o.rng2.length := Nat.lt_of_le_of_ne hj hend2
  rw [deref_eq hlt1, exec_bind_ok, deref_eq hlt2, exec_bind_ok]
  by_cases hlt : o.pred (o.proj1 o.rng1[i]) (o.proj2 o.rng2[j]) = true
  · have hcompare := SetOperands.compare_lt hlt
    rw [if_pos hlt, MergePolicy.turn_lt hlt1 hlt2 hcompare]
    exact .inr ⟨nofun, _, rfl, .first hlt1 hlt2 hcompare⟩
  rw [if_neg hlt]
  by_cases hgt : o.pred (o.proj2 o.rng2[j]) (o.proj1 o.rng1[i]) = true
  · have hcompare := SetOperands.compare_gt hlt hgt
    rw [if_pos hgt, MergePolicy.turn_gt hlt1 hlt2 hcompare]
    exact .inr ⟨nofun, _, rfl, .second hlt1 hlt2 hcompare⟩
  · rw [if_neg hgt, MergePolicy.turn_eq hlt1 hlt2 (SetOperands.compare_eq hlt hgt)]
    exact .inl ⟨_, rfl, rfl⟩

theorem run_satisfy (o : SetOperands α β κ) (common1 : α → γ) (common2 : β → γ)
    (state : SymmetricStateT) {i j : Nat} (hi : i ≤ o.end1) (hj : j ≤ o.end2) :
    ∃ c s', satisfy o (satisfyTurns o) ⟨i, j, state⟩ = .ok c ∧
      Skips (o.symmetricTurn common1 common2) (i, j) s' ∧ Stands o s' c :=
  (settles o common1 common2 state).run hi hj (Nat.lt_succ_self _)

variable {o : SetOperands α β κ} {common1 : α → γ} {common2 : β → γ}

theorem turn_stop {i j : Nat} (h : o.symmetricTurn common1 common2 (i, j) = .stop) :
    o.end1 ≤ i ∧ o.end2 ≤ j := by
  cases MergePolicy.turnCase (SetOperands.symmetricPolicy common1 common2) o.compare o.rng1
    o.rng2 i j with
  | ended hi hj => exact ⟨hi, hj⟩
  | lt hi hj _ hturn | gt hi hj _ hturn | eq hi hj _ hturn | rest1 hi hj hturn
  | rest2 hi hj hturn =>
    rw [SetOperands.symmetricTurn, hturn] at h
    cases h

theorem stop_of_stands {s : Nat × Nat} {c : SetSymmetricDifferenceCursor} (h : Stands o s c)
    (hstop : o.symmetricTurn common1 common2 s = .stop) :
    (loop o common1 common2).atEnd c = .ok true := by
  have hend : c.it1 = o.end1 ∧ c.it2 = o.end2 := by
    obtain ⟨hi, hj⟩ := turn_stop hstop
    cases h with
    | first hlt | second hlt => exact absurd hlt (Nat.not_lt.mpr hi)
    | onlyFirst hle => exact ⟨Nat.le_antisymm hle hi, rfl⟩
    | onlySecond hle => exact ⟨rfl, Nat.le_antisymm hle hj⟩
  have hboth : (c.it1 == o.end1 && c.it2 == o.end2) = true := by
    rw [hend.1, hend.2, beq_self_eq_true, beq_self_eq_true, Bool.and_self]
  exact congrArg Except.ok hboth

/-- The cursor can be read where one of its iterators is short of the end. -/
theorem atEnd_false {c : SetSymmetricDifferenceCursor} (h : c.it1 < o.end1 ∨ c.it2 < o.end2) :
    (loop o common1 common2).atEnd c = .ok false := by
  have hboth : (c.it1 == o.end1 && c.it2 == o.end2) = false := by
    rw [Bool.and_eq_false_iff, beq_eq_false_iff_ne, beq_eq_false_iff_ne]
    exact h.imp Nat.ne_of_lt Nat.ne_of_lt
  exact congrArg Except.ok hboth

theorem emitted_first {i j : Nat} (hi : i < o.end1) (hj : j < o.end2) :
    Emitted (o.symmetricTurn common1 common2) (loop o common1 common2) (Stands o)
      ⟨i, j, .first⟩ (common1 o.rng1[i]) (i + 1, j) := by
  have hread : read o common1 common2 ⟨i, j, .first⟩ = .ok (common1 o.rng1[i]) := by
    rw [read, if_neg (by simp), deref_eq hi]
    rfl
  have hnext : next o ⟨i, j, .first⟩ = satisfy o (satisfyTurns o) ⟨i + 1, j, .first⟩ := by
    rw [next, incr_ok hi, exec_bind_ok]
  exact .of_run (atEnd_false (.inl hi)) hread hnext
    (run_satisfy o common1 common2 .first hi (Nat.le_of_lt hj))

theorem emitted_second {i j : Nat} (hi : i < o.end1) (hj : j < o.end2) :
    Emitted (o.symmetricTurn common1 common2) (loop o common1 common2) (Stands o)
      ⟨i, j, .second⟩ (common2 o.rng2[j]) (i, j + 1) := by
  have hread : read o common1 common2 ⟨i, j, .second⟩ = .ok (common2 o.rng2[j]) := by
    rw [read, if_pos (.inl rfl), deref_eq hj]
    rfl
  have hnext : next o ⟨i, j, .second⟩ = satisfy o (satisfyTurns o) ⟨i, j + 1, .second⟩ := by
    rw [next, incr_ok hj, exec_bind_ok]
  exact .of_run (atEnd_false (.inr hj)) hread hnext
    (run_satisfy o common1 common2 .second (Nat.le_of_lt hi) hj)

/-- No `satisfy` follows the step, and none is needed. -/
theorem emitted_onlyFirst {i : Nat} (hi : i < o.end1) :
    Emitted (o.symmetricTurn common1 common2) (loop o common1 common2) (Stands o)
      ⟨i, o.end2, .onlyFirst⟩ (common1 o.rng1[i]) (i + 1, o.end2) := by
  have hread : read o common1 common2 ⟨i, o.end2, .onlyFirst⟩ = .ok (common1 o.rng1[i]) := by
    rw [read, if_neg (by simp), deref_eq hi]
    rfl
  have hnext : next o ⟨i, o.end2, .onlyFirst⟩ = .ok ⟨i + 1, o.end2, .onlyFirst⟩ := by
    unfold next
    dsimp only
    rw [incr_ok hi, exec_bind_ok]
  exact ⟨atEnd_false (.inl hi), hread, _, _, hnext,
    .here (MergePolicy.not_skip_of_end (.inr (Nat.le_refl _))), .onlyFirst hi⟩

theorem emitted_onlySecond {j : Nat} (hj : j < o.end2) :
    Emitted (o.symmetricTurn common1 common2) (loop o common1 common2) (Stands o)
      ⟨o.end1, j, .onlySecond⟩ (common2 o.rng2[j]) (o.end1, j + 1) := by
  have hread : read o common1 common2 ⟨o.end1, j, .onlySecond⟩ = .ok (common2 o.rng2[j]) := by
    rw [read, if_pos (.inr rfl), deref_eq hj]
    rfl
  have hnext : next o ⟨o.end1, j, .onlySecond⟩ = .ok ⟨o.end1, j + 1, .onlySecond⟩ := by
    unfold next
    dsimp only
    rw [incr_ok hj, exec_bind_ok]
  exact ⟨atEnd_false (.inr hj), hread, _, _, hnext,
    .here (MergePolicy.not_skip_of_end (.inl (Nat.le_refl _))), .onlySecond hj⟩

theorem resumes (o : SetOperands α β κ) (common1 : α → γ) (common2 : β → γ) :
    Resumes (o.symmetricTurn common1 common2) (0, 0) (loop o common1 common2) (Stands o) := by
  constructor
  · exact run_satisfy o common1 common2 .first (Nat.zero_le _) (Nat.zero_le _)
  · exact fun s c hstands hstop => stop_of_stands hstands hstop
  · intro s c x s' hstands hemit
    rw [SetOperands.symmetricTurn] at hemit
    cases hstands with
    | first hi hj hcompare =>
      rw [MergePolicy.turn_lt hi hj hcompare] at hemit
      cases hemit
      exact emitted_first hi hj
    | second hi hj hcompare =>
      rw [MergePolicy.turn_gt hi hj hcompare] at hemit
      cases hemit
      exact emitted_second hi hj
    | onlyFirst hle =>
      rcases Nat.lt_or_eq_of_le hle with hi | rfl
      · rw [MergePolicy.turn_rest1 hi (Nat.le_refl o.end2)] at hemit
        cases hemit
        exact emitted_onlyFirst hi
      · rw [MergePolicy.turn_end (Nat.le_refl o.end1) (Nat.le_refl o.end2)] at hemit
        cases hemit
    | onlySecond hle =>
      rcases Nat.lt_or_eq_of_le hle with hj | rfl
      · rw [MergePolicy.turn_rest2 (Nat.le_refl o.end1) hj] at hemit
        cases hemit
        exact emitted_onlySecond hj
      · rw [MergePolicy.turn_end (Nat.le_refl o.end1) (Nat.le_refl o.end2)] at hemit
        cases hemit

end SetSymmetricDifferenceCursor

/-! ## Union -/

namespace SetUnionView

variable {o : SetOperands α β κ} {common1 : α → γ} {common2 : β → γ} {k : Bool}

/-- The cursor of a turn of the merge. When two heads are equal its second iterator is
already past the one that the turn passes over. -/
inductive Stands (o : SetOperands α β κ) (common1 : α → γ) (common2 : β → γ) :
    Nat × Nat → SetUnionCursor k → Prop
  | first {i j it2 : Nat} (hi : i < o.end1) (hit2 : it2 ≤ o.end2)
    (hturn : o.unionTurn common1 common2 (i, j) = .emit (common1 o.rng1[i]) (i + 1, it2)) :
    Stands o common1 common2 (i, j) ⟨i, it2, some .first⟩
  | second {i j : Nat} (hi : i ≤ o.end1) (hj : j < o.end2)
    (hturn : o.unionTurn common1 common2 (i, j) = .emit (common2 o.rng2[j]) (i, j + 1)) :
    Stands o common1 common2 (i, j) ⟨i, j, some .second⟩
  | ended : Stands o common1 common2 (o.end1, o.end2) ⟨o.end1, o.end2, some .second⟩

theorem not_skip (s s' : Nat × Nat) : o.unionTurn common1 common2 s ≠ .skip s' := by
  obtain ⟨i, j⟩ := s
  rw [SetOperands.unionTurn]
  cases MergePolicy.turnCase (SetOperands.unionPolicy common1 common2) o.compareUnion o.rng1
    o.rng2 i j with
  | lt hi hj _ hturn | gt hi hj _ hturn | eq hi hj _ hturn | rest1 hi hj hturn
  | rest2 hi hj hturn | ended hi hj hturn =>
    rw [hturn]
    exact nofun

theorem satisfy_stands (o : SetOperands α β κ) (common1 : α → γ) (common2 : β → γ)
    {i j : Nat} (state : Option StateT) (hi : i ≤ o.end1) (hj : j ≤ o.end2) :
    ∃ c : SetUnionCursor k, satisfy (setUnionView o common1 common2) ⟨i, j, state⟩ = .ok c ∧
      Stands o common1 common2 (i, j) c := by
  unfold satisfy setUnionView
  dsimp only
  rcases Nat.lt_or_eq_of_le hi with hlt1 | rfl
  · rw [if_neg (show i ≠ o.rng1.length from Nat.ne_of_lt hlt1)]
    rcases Nat.lt_or_eq_of_le hj with hlt2 | rfl
    · rw [if_neg (show j ≠ o.rng2.length from Nat.ne_of_lt hlt2), deref_eq hlt1, exec_bind_ok,
        deref_eq hlt2, exec_bind_ok]
      by_cases hgt : o.pred (o.proj2 o.rng2[j]) (o.proj1 o.rng1[i]) = true
      · rw [if_pos hgt]
        exact ⟨_, rfl, .second hi hlt2
          (MergePolicy.turn_gt hlt1 hlt2 (SetOperands.compareUnion_gt hgt))⟩
      rw [if_neg hgt]
      by_cases hlt : o.pred (o.proj1 o.rng1[i]) (o.proj2 o.rng2[j]) = true
      · rw [if_neg (by simp [hlt])]
        exact ⟨_, rfl, .first hlt1 hj
          (MergePolicy.turn_lt hlt1 hlt2 (SetOperands.compareUnion_lt hgt hlt))⟩
      · rw [if_pos (by simpa using hlt)]
        exact ⟨_, rfl, .first hlt1 hlt2
          (MergePolicy.turn_eq hlt1 hlt2 (SetOperands.compareUnion_eq hgt hlt))⟩
    · rw [if_pos (show o.end2 = o.rng2.length from rfl)]
      exact ⟨_, rfl, .first hlt1 (Nat.le_refl _)
        (MergePolicy.turn_rest1 hlt1 (Nat.le_refl o.end2))⟩
  · rw [if_pos (show o.end1 = o.rng1.length from rfl)]
    rcases Nat.lt_or_eq_of_le hj with hlt2 | rfl
    · exact ⟨_, rfl, .second (Nat.le_refl _) hlt2
        (MergePolicy.turn_rest2 (Nat.le_refl o.end1) hlt2)⟩
    · exact ⟨_, rfl, .ended⟩

theorem run_satisfy (o : SetOperands α β κ) (common1 : α → γ) (common2 : β → γ)
    {i j : Nat} (state : Option StateT) (hi : i ≤ o.end1) (hj : j ≤ o.end2) :
    ∃ (c : SetUnionCursor k) (s' : Nat × Nat),
      satisfy (setUnionView o common1 common2) ⟨i, j, state⟩ = .ok c ∧
        Skips (o.unionTurn common1 common2) (i, j) s' ∧ Stands o common1 common2 s' c := by
  obtain ⟨c, hsatisfy, hstands⟩ := satisfy_stands o common1 common2 (k := k) state hi hj
  exact ⟨c, (i, j), hsatisfy, .here (not_skip (i, j)), hstands⟩

theorem atEnd_true : (setUnionView o common1 common2).atEnd (k := k)
    ⟨o.end1, o.end2, some .second⟩ = true := by
  unfold atEnd setUnionView
  rw [Bool.and_eq_true, beq_iff_eq, beq_iff_eq]
  exact ⟨rfl, rfl⟩

theorem atEnd_false {c : SetUnionCursor k} (h : c.it1 < o.end1 ∨ c.it2 < o.end2) :
    (setUnionView o common1 common2).atEnd c = false := by
  unfold atEnd setUnionView
  rw [Bool.and_eq_false_iff, beq_eq_false_iff_ne, beq_eq_false_iff_ne]
  exact h.imp Nat.ne_of_lt Nat.ne_of_lt

theorem emitted_first {i it2 : Nat} (hi : i < o.end1) (hit2 : it2 ≤ o.end2) :
    Emitted (o.unionTurn common1 common2) (loop k (setUnionView o common1 common2))
      (Stands o common1 common2) ⟨i, it2, some .first⟩ (common1 o.rng1[i]) (i + 1, it2) := by
  have hread : read (setUnionView o common1 common2) (k := k) ⟨i, it2, some .first⟩ =
      .ok (common1 o.rng1[i]) := congrArg (Except.map common1) (deref_eq hi)
  have hnext : next (setUnionView o common1 common2) (k := k) ⟨i, it2, some .first⟩ =
      satisfy (setUnionView o common1 common2) ⟨i + 1, it2, some .first⟩ := by
    unfold next setUnionView
    dsimp only
    rw [incr_ok hi, exec_bind_ok]
  have hend : (loop k (setUnionView o common1 common2)).atEnd ⟨i, it2, some .first⟩ = .ok false :=
    congrArg Except.ok (atEnd_false (.inl hi))
  exact .of_run hend hread hnext (run_satisfy o common1 common2 (some .first) hi hit2)

theorem emitted_second {i j : Nat} (hi : i ≤ o.end1) (hj : j < o.end2) :
    Emitted (o.unionTurn common1 common2) (loop k (setUnionView o common1 common2))
      (Stands o common1 common2) ⟨i, j, some .second⟩ (common2 o.rng2[j]) (i, j + 1) := by
  have hread : read (setUnionView o common1 common2) (k := k) ⟨i, j, some .second⟩ =
      .ok (common2 o.rng2[j]) := congrArg (Except.map common2) (deref_eq hj)
  have hnext : next (setUnionView o common1 common2) (k := k) ⟨i, j, some .second⟩ =
      satisfy (setUnionView o common1 common2) ⟨i, j + 1, some .second⟩ := by
    unfold next setUnionView
    dsimp only
    rw [incr_ok hj, exec_bind_ok]
  have hend : (loop k (setUnionView o common1 common2)).atEnd ⟨i, j, some .second⟩ = .ok false :=
    congrArg Except.ok (atEnd_false (.inr hj))
  exact .of_run hend hread hnext (run_satisfy o common1 common2 (some .second) hi hj)

theorem resumes (k : Bool) (o : SetOperands α β κ) (common1 : α → γ) (common2 : β → γ) :
    Resumes (o.unionTurn common1 common2) (0, 0) (loop k (setUnionView o common1 common2))
      (Stands o common1 common2) := by
  constructor
  · exact run_satisfy o common1 common2 none (Nat.zero_le _) (Nat.zero_le _)
  · intro s c hstands hstop
    cases hstands with
    | first _ _ hturn | second _ _ hturn =>
      rw [hturn] at hstop
      cases hstop
    | ended => exact congrArg Except.ok atEnd_true
  · intro s c x s' hstands hemit
    cases hstands with
    | first hi hit2 hturn =>
      rw [hturn] at hemit
      cases hemit
      exact emitted_first hi hit2
    | second hi hj hturn =>
      rw [hturn] at hemit
      cases hemit
      exact emitted_second hi hj
    | ended =>
      rw [SetOperands.unionTurn, MergePolicy.turn_end (Nat.le_refl o.end1) (Nat.le_refl o.end2)]
        at hemit
      cases hemit

end SetUnionView

/-! ## The views and the algorithms -/

/-- Each view delivers, in order, what the algorithm of the same name writes. -/
structure SetViewsAgree (o : SetOperands α β κ) (common1 : α → γ) (common2 : β → γ) : Prop where
  union : ∃ out, Returns (fun fuel => o.setUnion common1 common2 fuel 0 0 [])
      (o.end1, o.end2, out) ∧
    ∀ isConst, (SetUnionView.loop isConst (setUnionView o common1 common2)).Delivers out
  intersection : ∃ out, Returns (fun fuel => o.setIntersection fuel 0 0 []) out ∧
    (SetIntersectionCursor.loop o).Delivers out
  difference : ∃ out, Returns (fun fuel => o.setDifference fuel 0 0 []) (o.end1, out) ∧
    (SetDifferenceCursor.loop o).Delivers out
  symmetricDifference : ∃ out,
    Returns (fun fuel => o.setSymmetricDifference common1 common2 fuel 0 0 [])
      (o.end1, o.end2, out) ∧
    (SetSymmetricDifferenceCursor.loop o common1 common2).Delivers out

end EARanges.View
