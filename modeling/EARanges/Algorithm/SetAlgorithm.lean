import EARanges.Support.InPlace
import EARanges.Support.MergePolicy

/-!
# `includes` and the set algorithms

algorithm/set_algorithm.hpp: `includes`, `set_union`, `set_intersection`, `set_difference`
and `set_symmetric_difference`. Iterators into the two ranges are indices, the output
iterator is the list of what has been written. Each of the four is a merge of the two ranges
under a policy of its own; `set_union` tests the two orders in the other sequence.
-/
namespace EARanges.Algorithm
open EARanges.Support

/-- The two ranges, the predicate and the projections. -/
structure SetOperands (α β κ : Type) where
  rng1 : List α
  rng2 : List β
  pred : κ → κ → Bool
  proj1 : α → κ
  proj2 : β → κ

namespace SetOperands

variable {α β γ κ : Type}

def end1 (o : SetOperands α β κ) : Nat := o.rng1.length

def end2 (o : SetOperands α β κ) : Nat := o.rng2.length

def includes (o : SetOperands α β κ) : Nat → Nat → Nat → Exec Bool
  | 0, _, _ => .error .fuel
  | fuel + 1, begin1, begin2 =>
    if begin2 = o.end2 then .ok true
    else if begin1 = o.end1 then .ok false
    else do
      let x ← deref o.rng1 begin1
      let y ← deref o.rng2 begin2
      if o.pred (o.proj2 y) (o.proj1 x) then .ok false
      else if ¬ o.pred (o.proj1 x) (o.proj2 y) then includes o fuel (begin1 + 1) (begin2 + 1)
      else includes o fuel (begin1 + 1) begin2

/-- `common1` and `common2` convert what is written to the type of the output. -/
def setUnion (o : SetOperands α β κ) (common1 : α → γ) (common2 : β → γ) :
    Nat → Nat → Nat → List γ → Exec (Nat × Nat × List γ)
  | 0, _, _, _ => .error .fuel
  | fuel + 1, begin1, begin2, out =>
    if begin1 = o.end1 then .ok (begin1, o.end2, out ++ (o.rng2.drop begin2).map common2)
    else if begin2 = o.end2 then .ok (o.end1, begin2, out ++ (o.rng1.drop begin1).map common1)
    else do
      let x ← deref o.rng1 begin1
      let y ← deref o.rng2 begin2
      if o.pred (o.proj2 y) (o.proj1 x) then
        setUnion o common1 common2 fuel begin1 (begin2 + 1) (out ++ [common2 y])
      else if ¬ o.pred (o.proj1 x) (o.proj2 y) then
        setUnion o common1 common2 fuel (begin1 + 1) (begin2 + 1) (out ++ [common1 x])
      else setUnion o common1 common2 fuel (begin1 + 1) begin2 (out ++ [common1 x])

def setIntersection (o : SetOperands α β κ) : Nat → Nat → Nat → List α → Exec (List α)
  | 0, _, _, _ => .error .fuel
  | fuel + 1, begin1, begin2, out =>
    if begin1 ≠ o.end1 ∧ begin2 ≠ o.end2 then do
      let x ← deref o.rng1 begin1
      let y ← deref o.rng2 begin2
      if o.pred (o.proj1 x) (o.proj2 y) then setIntersection o fuel (begin1 + 1) begin2 out
      else if ¬ o.pred (o.proj2 y) (o.proj1 x) then
        setIntersection o fuel (begin1 + 1) (begin2 + 1) (out ++ [x])
      else setIntersection o fuel begin1 (begin2 + 1) out
    else .ok out

def setDifference (o : SetOperands α β κ) : Nat → Nat → Nat → List α → Exec (Nat × List α)
  | 0, _, _, _ => .error .fuel
  | fuel + 1, begin1, begin2, out =>
    if begin1 = o.end1 then .ok (begin1, out)
    else if begin2 = o.end2 then .ok (o.end1, out ++ o.rng1.drop begin1)
    else do
      let x ← deref o.rng1 begin1
      let y ← deref o.rng2 begin2
      if o.pred (o.proj1 x) (o.proj2 y) then
        setDifference o fuel (begin1 + 1) begin2 (out ++ [x])
      else if ¬ o.pred (o.proj2 y) (o.proj1 x) then
        setDifference o fuel (begin1 + 1) (begin2 + 1) out
      else setDifference o fuel begin1 (begin2 + 1) out

def setSymmetricDifference (o : SetOperands α β κ) (common1 : α → γ) (common2 : β → γ) :
    Nat → Nat → Nat → List γ → Exec (Nat × Nat × List γ)
  | 0, _, _, _ => .error .fuel
  | fuel + 1, begin1, begin2, out =>
    if begin1 = o.end1 then .ok (begin1, o.end2, out ++ (o.rng2.drop begin2).map common2)
    else if begin2 = o.end2 then .ok (o.end1, begin2, out ++ (o.rng1.drop begin1).map common1)
    else do
      let x ← deref o.rng1 begin1
      let y ← deref o.rng2 begin2
      if o.pred (o.proj1 x) (o.proj2 y) then
        setSymmetricDifference o common1 common2 fuel (begin1 + 1) begin2 (out ++ [common1 x])
      else if o.pred (o.proj2 y) (o.proj1 x) then
        setSymmetricDifference o common1 common2 fuel begin1 (begin2 + 1) (out ++ [common2 y])
      else setSymmetricDifference o common1 common2 fuel (begin1 + 1) (begin2 + 1) out

/-! ## As merges -/

/-- The order of two heads, the test for `lt` first. -/
def compare (o : SetOperands α β κ) (x : α) (y : β) : Ordering :=
  if o.pred (o.proj1 x) (o.proj2 y) then .lt
  else if o.pred (o.proj2 y) (o.proj1 x) then .gt
  else .eq

/-- The order of two heads, the test for `gt` first. -/
def compareUnion (o : SetOperands α β κ) (x : α) (y : β) : Ordering :=
  if o.pred (o.proj2 y) (o.proj1 x) then .gt
  else if o.pred (o.proj1 x) (o.proj2 y) then .lt
  else .eq

def unionPolicy (common1 : α → γ) (common2 : β → γ) : MergePolicy α β γ where
  rest1 := some common1
  rest2 := some common2
  less := some common1
  greater := some common2
  equal := some common1

def intersectionPolicy : MergePolicy α β α where
  rest1 := none
  rest2 := none
  less := none
  greater := none
  equal := some id

def differencePolicy : MergePolicy α β α where
  rest1 := some id
  rest2 := none
  less := some id
  greater := none
  equal := none

def symmetricPolicy (common1 : α → γ) (common2 : β → γ) : MergePolicy α β γ where
  rest1 := some common1
  rest2 := some common2
  less := some common1
  greater := some common2
  equal := none

def unionTurn (o : SetOperands α β κ) (common1 : α → γ) (common2 : β → γ) :
    Nat × Nat → Turn (Nat × Nat) γ :=
  (unionPolicy common1 common2).turn o.compareUnion o.rng1 o.rng2

def intersectionTurn (o : SetOperands α β κ) : Nat × Nat → Turn (Nat × Nat) α :=
  intersectionPolicy.turn o.compare o.rng1 o.rng2

def differenceTurn (o : SetOperands α β κ) : Nat × Nat → Turn (Nat × Nat) α :=
  differencePolicy.turn o.compare o.rng1 o.rng2

def symmetricTurn (o : SetOperands α β κ) (common1 : α → γ) (common2 : β → γ) :
    Nat × Nat → Turn (Nat × Nat) γ :=
  (symmetricPolicy common1 common2).turn o.compare o.rng1 o.rng2

theorem compare_lt {o : SetOperands α β κ} {x : α} {y : β}
    (h : o.pred (o.proj1 x) (o.proj2 y) = true) : o.compare x y = .lt := if_pos h

theorem compare_gt {o : SetOperands α β κ} {x : α} {y : β}
    (h1 : ¬ o.pred (o.proj1 x) (o.proj2 y) = true) (h2 : o.pred (o.proj2 y) (o.proj1 x) = true) :
    o.compare x y = .gt := (if_neg h1).trans (if_pos h2)

theorem compare_eq {o : SetOperands α β κ} {x : α} {y : β}
    (h1 : ¬ o.pred (o.proj1 x) (o.proj2 y) = true)
    (h2 : ¬ o.pred (o.proj2 y) (o.proj1 x) = true) : o.compare x y = .eq :=
  (if_neg h1).trans (if_neg h2)

theorem compareUnion_gt {o : SetOperands α β κ} {x : α} {y : β}
    (h : o.pred (o.proj2 y) (o.proj1 x) = true) : o.compareUnion x y = .gt := if_pos h

theorem compareUnion_lt {o : SetOperands α β κ} {x : α} {y : β}
    (h1 : ¬ o.pred (o.proj2 y) (o.proj1 x) = true) (h2 : o.pred (o.proj1 x) (o.proj2 y) = true) :
    o.compareUnion x y = .lt := (if_neg h1).trans (if_pos h2)

theorem compareUnion_eq {o : SetOperands α β κ} {x : α} {y : β}
    (h1 : ¬ o.pred (o.proj2 y) (o.proj1 x) = true)
    (h2 : ¬ o.pred (o.proj1 x) (o.proj2 y) = true) : o.compareUnion x y = .eq :=
  (if_neg h1).trans (if_neg h2)

theorem setUnion_writes (o : SetOperands α β κ) (common1 : α → γ) (common2 : β → γ) :
    (unionPolicy common1 common2).Writes o.compareUnion o.rng1 o.rng2
      (fun fuel s out => setUnion o common1 common2 fuel s.1 s.2 out)
      (fun zs => (o.end1, o.end2, zs)) := by
  constructor
  · intro fuel i j out hi hj
    have hi' : i ≠ o.end1 := Nat.ne_of_lt hi
    have hj' : j ≠ o.end2 := Nat.ne_of_lt hj
    dsimp only
    rw [setUnion, if_neg hi', if_neg hj', deref_eq hi, exec_bind_ok, deref_eq hj, exec_bind_ok]
    by_cases hgt : o.pred (o.proj2 o.rng2[j]) (o.proj1 o.rng1[i]) = true
    · rw [if_pos hgt, MergePolicy.turn_gt hi hj (compareUnion_gt hgt)]
      rfl
    rw [if_neg hgt]
    by_cases hlt : o.pred (o.proj1 o.rng1[i]) (o.proj2 o.rng2[j]) = true
    · rw [if_neg (not_not_intro hlt), MergePolicy.turn_lt hi hj (compareUnion_lt hgt hlt)]
      rfl
    · rw [if_pos hlt, MergePolicy.turn_eq hi hj (compareUnion_eq hgt hlt)]
      rfl
  · intro fuel i out hi
    have hi' : i ≠ o.end1 := Nat.ne_of_lt hi
    exact (if_neg hi').trans (if_pos rfl)
  · intro fuel j out hj
    exact if_pos rfl

theorem setIntersection_writes (o : SetOperands α β κ) :
    intersectionPolicy.Writes o.compare o.rng1 o.rng2
      (fun fuel s out => setIntersection o fuel s.1 s.2 out) (fun zs => zs) := by
  constructor
  · intro fuel i j out hi hj
    have hboth : i ≠ o.end1 ∧ j ≠ o.end2 := ⟨Nat.ne_of_lt hi, Nat.ne_of_lt hj⟩
    dsimp only
    rw [setIntersection, if_pos hboth, deref_eq hi, exec_bind_ok, deref_eq hj, exec_bind_ok]
    by_cases hlt : o.pred (o.proj1 o.rng1[i]) (o.proj2 o.rng2[j]) = true
    · rw [if_pos hlt, MergePolicy.turn_lt hi hj (compare_lt hlt)]
      rfl
    rw [if_neg hlt]
    by_cases hgt : o.pred (o.proj2 o.rng2[j]) (o.proj1 o.rng1[i]) = true
    · rw [if_neg (not_not_intro hgt), MergePolicy.turn_gt hi hj (compare_gt hlt hgt)]
      rfl
    · rw [if_pos hgt, MergePolicy.turn_eq hi hj (compare_eq hlt hgt)]
      rfl
  · intro fuel i out hi
    have hend : ¬ (i ≠ o.end1 ∧ o.rng2.length ≠ o.end2) := fun h => h.2 rfl
    dsimp only
    rw [setIntersection, if_neg hend, intersectionPolicy, MergePolicy.restOf, List.append_nil]
  · intro fuel j out hj
    have hend : ¬ (o.rng1.length ≠ o.end1 ∧ j ≠ o.end2) := fun h => h.1 rfl
    dsimp only
    rw [setIntersection, if_neg hend, intersectionPolicy, MergePolicy.restOf, List.append_nil]

theorem setDifference_writes (o : SetOperands α β κ) :
    differencePolicy.Writes o.compare o.rng1 o.rng2
      (fun fuel s out => setDifference o fuel s.1 s.2 out) (fun zs => (o.end1, zs)) := by
  constructor
  · intro fuel i j out hi hj
    have hi' : i ≠ o.end1 := Nat.ne_of_lt hi
    have hj' : j ≠ o.end2 := Nat.ne_of_lt hj
    dsimp only
    rw [setDifference, if_neg hi', if_neg hj', deref_eq hi, exec_bind_ok, deref_eq hj,
      exec_bind_ok]
    by_cases hlt : o.pred (o.proj1 o.rng1[i]) (o.proj2 o.rng2[j]) = true
    · rw [if_pos hlt, MergePolicy.turn_lt hi hj (compare_lt hlt)]
      rfl
    rw [if_neg hlt]
    by_cases hgt : o.pred (o.proj2 o.rng2[j]) (o.proj1 o.rng1[i]) = true
    · rw [if_neg (not_not_intro hgt), MergePolicy.turn_gt hi hj (compare_gt hlt hgt)]
      rfl
    · rw [if_pos hgt, MergePolicy.turn_eq hi hj (compare_eq hlt hgt)]
      rfl
  · intro fuel i out hi
    have hi' : i ≠ o.end1 := Nat.ne_of_lt hi
    have hj' : o.rng2.length = o.end2 := rfl
    dsimp only
    rw [setDifference, if_neg hi', if_pos hj', differencePolicy, MergePolicy.restOf, List.map_id]
  · intro fuel j out hj
    have hi' : o.rng1.length = o.end1 := rfl
    dsimp only
    rw [setDifference, if_pos hi', differencePolicy, MergePolicy.restOf, List.append_nil]
    rfl

theorem setSymmetricDifference_writes (o : SetOperands α β κ) (common1 : α → γ)
    (common2 : β → γ) :
    (symmetricPolicy common1 common2).Writes o.compare o.rng1 o.rng2
      (fun fuel s out => setSymmetricDifference o common1 common2 fuel s.1 s.2 out)
      (fun zs => (o.end1, o.end2, zs)) := by
  constructor
  · intro fuel i j out hi hj
    have hi' : i ≠ o.end1 := Nat.ne_of_lt hi
    have hj' : j ≠ o.end2 := Nat.ne_of_lt hj
    dsimp only
    rw [setSymmetricDifference, if_neg hi', if_neg hj', deref_eq hi, exec_bind_ok, deref_eq hj,
      exec_bind_ok]
    by_cases hlt : o.pred (o.proj1 o.rng1[i]) (o.proj2 o.rng2[j]) = true
    · rw [if_pos hlt, MergePolicy.turn_lt hi hj (compare_lt hlt)]
      rfl
    rw [if_neg hlt]
    by_cases hgt : o.pred (o.proj2 o.rng2[j]) (o.proj1 o.rng1[i]) = true
    · rw [if_pos hgt, MergePolicy.turn_gt hi hj (compare_gt hlt hgt)]
      rfl
    · rw [if_neg hgt, MergePolicy.turn_eq hi hj (compare_eq hlt hgt)]
      rfl
  · intro fuel i out hi
    have hi' : i ≠ o.end1 := Nat.ne_of_lt hi
    exact (if_neg hi').trans (if_pos rfl)
  · intro fuel j out hj
    exact if_pos rfl

end SetOperands

end EARanges.Algorithm
