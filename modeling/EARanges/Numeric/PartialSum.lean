import EARanges.Algorithm.UniqueCopy
import EARanges.Support.RunningSum

/-!
# `partial_sum` and `adjacent_difference`

numeric/partial_sum.hpp and adjacent_difference.hpp. Both write as many results as there are
elements to read and cells to write, and carry one value from element to element: the sum, or
the element before.
-/
namespace EARanges.Numeric
open EARanges.Support

variable {σ α β : Type}

/-- `detail::in_out_result`, and the output range as it is left. -/
structure InOutResult (β : Type) where
  in_ : Nat
  out : Nat
  cells : List β
  deriving DecidableEq, Repr

namespace InOutResult

/-- What has been written. -/
def written (r : InOutResult β) : List β := r.cells.take r.out

end InOutResult

section
variable (init : α → σ × β) (step : σ → α → σ × β)

/-- `for(++first, ++result; first != last && result != end_result; ++first, ++result)`, where
`step` renews the value carried and gives the one written. -/
def accumulateLoop (l : List α) : Nat → σ → Nat → Nat → List β → Exec (InOutResult β)
  | 0, _, _, _, _ => .error .fuel
  | fuel + 1, t, first, result, cells =>
    if first ≠ l.length ∧ result ≠ cells.length then do
      let x ← deref l first
      let cells ← assign cells result (step t x).2
      let first ← incr l first
      let result ← incr cells result
      accumulateLoop l fuel (step t x).1 first result cells
    else .ok ⟨first, result, cells⟩

/-- The two functions up to what they carry and write. -/
def accumulate (l : List α) (cells : List β) : Exec (InOutResult β) :=
  if 0 ≠ l.length ∧ 0 ≠ cells.length then do
    let x ← deref l 0
    let cells ← assign cells 0 (init x).2
    let first ← incr l 0
    let result ← incr cells 0
    accumulateLoop step l (l.length + 1) (init x).1 first result cells
  else .ok ⟨0, 0, cells⟩

end

section
variable (bop : β → β → β) (proj : α → β)

/-- `partial_sum(first, last, result, end_result, bop, proj)`. -/
def partialSum (l : List α) (cells : List β) : Exec (InOutResult β) :=
  accumulate (fun x => (proj x, proj x)) (fun t x => (bop t (proj x), bop t (proj x))) l cells

/-- `adjacent_difference(first, last, result, end_result, bop, proj)`. -/
def adjacentDifference (l : List α) (cells : List β) : Exec (InOutResult β) :=
  accumulate (fun x => (proj x, proj x)) (fun t1 x => (proj x, bop (proj x) t1)) l cells

end

/-- A run has read and written `n` elements, the first of `values`, and left the other cells
alone. -/
structure Wrote (cells values : List β) (n : Nat) (r : InOutResult β) : Prop where
  in_ : r.in_ = n
  out : r.out = n
  written : r.written = values.take n
  rest : r.cells.drop n = cells.drop n

variable {init : α → σ × β} {step : σ → α → σ × β} {l : List α} {cells : List β}

theorem accumulateLoop_eq {fuel i : Nat} (t : σ) (hi : i ≤ l.length) (hi' : i ≤ cells.length)
    (hfuel : l.length < fuel + i) :
    accumulateLoop step l fuel t i i cells = .ok ⟨min l.length cells.length,
      min l.length cells.length, Algorithm.overwrite cells i
        (outputs step t ((l.take (min l.length cells.length)).drop i))⟩ := by
  induction fuel generalizing i t cells with
  | zero => omega
  | succ fuel ih =>
    rw [accumulateLoop]
    by_cases hmore : i ≠ l.length ∧ i ≠ cells.length
    · have hlt : i < l.length ∧ i < cells.length := by omega
      have hmin : i < (l.take (min l.length cells.length)).length := by
        rw [List.length_take]
        omega
      have hset : (cells.set i (step t l[i]).2).length = cells.length := List.length_set
      rw [if_pos hmore, deref_eq hlt.1, exec_bind_ok, assign_eq hlt.2, exec_bind_ok, incr_ok hlt.1,
        exec_bind_ok, incr_ok (by rw [hset]; exact hlt.2), exec_bind_ok,
        ih _ hlt.1 (by rw [hset]; exact hlt.2) (by omega), hset, List.drop_eq_getElem_cons hmin,
        List.getElem_take, outputs, Algorithm.overwrite_cons hlt.2]
    · have hend : i = min l.length cells.length := by omega
      have hnil : (l.take (min l.length cells.length)).drop i = [] := by
        rw [List.drop_eq_nil_iff, List.length_take]
        omega
      rw [if_neg hmore, hnil, outputs, Algorithm.overwrite_nil, ← hend]

theorem accumulate_eq (init : α → σ × β) (step : σ → α → σ × β) (l : List α) (cells : List β) :
    accumulate init step l cells = .ok ⟨min l.length cells.length, min l.length cells.length,
      Algorithm.overwrite cells 0 (running init step (l.take (min l.length cells.length)))⟩ := by
  rw [accumulate]
  by_cases hsome : 0 ≠ l.length ∧ 0 ≠ cells.length
  · have hpos : 0 < l.length ∧ 0 < cells.length := by omega
    obtain ⟨x, xs, rfl⟩ := List.exists_cons_of_ne_nil (List.ne_nil_of_length_pos hpos.1)
    have hset : (cells.set 0 (init x).2).length = cells.length := List.length_set
    obtain ⟨m, hm⟩ : ∃ m, min (x :: xs).length cells.length = m + 1 :=
      Nat.exists_eq_add_of_le' (by omega)
    rw [if_pos hsome, deref_of_some rfl, exec_bind_ok, assign_eq hpos.2, exec_bind_ok,
      incr_ok hpos.1, exec_bind_ok, incr_ok (by rw [hset]; exact hpos.2), exec_bind_ok,
      accumulateLoop_eq _ hpos.1 (by rw [hset]; exact hpos.2) (by omega), hset, hm,
      List.take_succ_cons, running, Algorithm.overwrite_cons hpos.2]
    rfl
  · have hzero : min l.length cells.length = 0 := by omega
    rw [if_neg hsome, hzero, List.take_zero, running, Algorithm.overwrite_nil]

/-- As many results as both ranges have room for. -/
theorem accumulate_wrote (init : α → σ × β) (step : σ → α → σ × β) (l : List α) (cells : List β) :
    ∃ r, accumulate init step l cells = .ok r ∧
      Wrote cells (running init step l) (min l.length cells.length) r := by
  have hrun := accumulate_eq init step l cells
  have hle : min l.length cells.length ≤ l.length := Nat.min_le_left _ _
  generalize min l.length cells.length = m at hrun hle ⊢
  have hlength : (running init step (l.take m)).length = m := by
    rw [length_running, List.length_take_of_le hle]
  have hcells : Algorithm.overwrite cells 0 (running init step (l.take m)) =
      running init step (l.take m) ++ cells.drop m := by
    rw [Algorithm.overwrite, List.take_zero, List.nil_append, Nat.zero_add, hlength]
  refine ⟨_, hrun, rfl, rfl, ?_, ?_⟩
  · rw [InOutResult.written, hcells, take_running]
    exact List.take_left' hlength
  · rw [hcells]
    exact List.drop_left' hlength

theorem partialSum_wrote (bop : β → β → β) (proj : α → β) (l : List α) (cells : List β) :
    ∃ r, partialSum bop proj l cells = .ok r ∧
      Wrote cells (sums bop (l.map proj)) (min l.length cells.length) r := by
  rw [partialSum, ← running_sums]
  exact accumulate_wrote _ _ l cells

theorem adjacentDifference_wrote (bop : β → β → β) (proj : α → β) (l : List α) (cells : List β) :
    ∃ r, adjacentDifference bop proj l cells = .ok r ∧
      Wrote cells (diffs bop (l.map proj)) (min l.length cells.length) r := by
  rw [adjacentDifference, ← running_diffs]
  exact accumulate_wrote _ _ l cells

end EARanges.Numeric
