import Mathlib.Data.List.Basic

/-!
# `mismatch`

algorithm/mismatch.hpp. An iterator is the suffix it starts.
-/
namespace EARanges.Algorithm

variable {α β γ : Type}

/-- `mismatch(begin1, end1, begin2, end2, pred, proj1, proj2)`. -/
def mismatch (pred : γ → γ → Bool) (proj1 : α → γ) (proj2 : β → γ) :
    List α → List β → List α × List β
  | a :: s1, b :: s2 =>
    if !pred (proj1 a) (proj2 b) then (a :: s1, b :: s2) else mismatch pred proj1 proj2 s1 s2
  | s1, s2 => (s1, s2)

variable [DecidableEq α]

/-- Under equality the second range is read to its end when it is a prefix of the first. -/
theorem mismatch_append (s2 rest : List α) :
    mismatch (fun x y => decide (x = y)) id id (s2 ++ rest) s2 = (rest, []) := by
  induction s2 with
  | nil =>
    rw [List.nil_append]
    cases rest <;> rfl
  | cons b s2 ih =>
    rw [List.cons_append, mismatch, if_neg (by simp)]
    exact ih

theorem prefix_of_mismatch {s1 s2 : List α}
    (h : (mismatch (fun x y => decide (x = y)) id id s1 s2).2 = []) : s2 <+: s1 := by
  induction s2 generalizing s1 with
  | nil => exact List.nil_prefix
  | cons b s2 ih =>
    cases s1 with
    | nil => cases h
    | cons a s1 =>
      rw [mismatch] at h
      by_cases hab : a = b
      · rw [if_neg (by simp [hab])] at h
        exact List.cons_prefix_cons.mpr ⟨hab.symm, ih h⟩
      · rw [if_pos (by simp [hab])] at h
        cases h

end EARanges.Algorithm
