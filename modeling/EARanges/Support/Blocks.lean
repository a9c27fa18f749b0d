import Mathlib.Data.List.Basic
import Mathlib.Tactic.ByContra

/-!
# Consecutive blocks of a list

Block `k` of size `n` is made of the positions `k * n, ..., k * n + n - 1` that exist.
There are `ceilDiv l.length n` of them that are not empty, and in order they make up
the list.
-/
namespace EARanges.Support

variable {α : Type}

/-- Division rounded up, as `(a + n - 1) / n`. -/
def ceilDiv (a n : Nat) : Nat := (a + n - 1) / n

theorem ceilDiv_zero (n : Nat) : ceilDiv 0 n = 0 := by
  unfold ceilDiv
  rcases Nat.eq_zero_or_pos n with rfl | hn
  · rfl
  · exact Nat.div_eq_of_lt (by omega)

theorem ceilDiv_of_pos {a n : Nat} (hn : 0 < n) (ha : 0 < a) :
    ceilDiv a n = ceilDiv (a - n) n + 1 := by
  unfold ceilDiv
  rcases Nat.lt_or_ge a n with h | h
  · rw [Nat.sub_eq_zero_of_le (Nat.le_of_lt h), Nat.zero_add,
      Nat.div_eq_of_lt (by omega : n - 1 < n)]
    exact Nat.div_eq_of_lt_le (by omega) (by omega)
  · have : a + n - 1 = (a - n + n - 1) + n := by omega
    rw [this, Nat.add_div_right _ hn]

/-- `k` blocks begin inside a list of length `a`, and `k + 1` do not. -/
theorem ceilDiv_unique {a n k : Nat} (hn : 0 < n) (hend : a ≤ k * n)
    (hstart : k = 0 ∨ (k - 1) * n < a) : k = ceilDiv a n := by
  unfold ceilDiv
  symm
  rcases hstart with rfl | hstart
  · have ha : a = 0 := by omega
    subst ha
    exact Nat.div_eq_of_lt (by omega)
  · rcases k with _ | k
    · simp at hend
      omega
    · simp only [Nat.add_sub_cancel] at hstart
      have hmul : (k + 1) * n = k * n + n := Nat.succ_mul k n
      have hmul' : (k + 1 + 1) * n = k * n + n + n := by rw [Nat.succ_mul, Nat.succ_mul]
      exact Nat.div_eq_of_lt_le (by omega) (by omega)

/-- A last block is begun when the division leaves a remainder. -/
theorem ceilDiv_eq {a n : Nat} (hn : 0 < n) :
    ceilDiv a n = if a % n ≠ 0 then a / n + 1 else a / n := by
  symm
  have hdiv := Nat.div_add_mod a n
  rw [Nat.mul_comm] at hdiv
  have hrem := Nat.mod_lt a hn
  split
  next hne =>
    have hmul : (a / n + 1) * n = a / n * n + n := Nat.succ_mul _ _
    exact ceilDiv_unique hn (by omega) (.inr (by rw [Nat.add_sub_cancel]; omega))
  next heq =>
    apply ceilDiv_unique hn (by omega)
    rcases Nat.eq_zero_or_pos (a / n) with hzero | hk
    · exact .inl hzero
    · have hpred : a / n * n = (a / n - 1) * n + n := by
        rw [← Nat.succ_mul, Nat.succ_eq_add_one, Nat.sub_add_cancel hk]
      exact .inr (by omega)

theorem lt_ceilDiv_iff {a n k : Nat} (hn : 0 < n) : k < ceilDiv a n ↔ k * n < a := by
  unfold ceilDiv
  rw [Nat.lt_iff_add_one_le, Nat.le_div_iff_mul_le hn, Nat.succ_mul]
  omega

/-- Block `k` of size `n`. -/
def block (n : Nat) (l : List α) (k : Nat) : List α := (l.drop (k * n)).take n

theorem length_block (n : Nat) (l : List α) (k : Nat) :
    (block n l k).length = min n (l.length - k * n) := by
  rw [block, List.length_take, List.length_drop]

theorem block_getElem? (n : Nat) (l : List α) (k c : Nat) (hc : c < n) :
    (block n l k)[c]? = l[k * n + c]? := by
  rw [block, List.getElem?_take_of_lt hc, List.getElem?_drop]

/-- The non-empty blocks in order. -/
def blocks (n : Nat) (l : List α) : List (List α) :=
  (List.range (ceilDiv l.length n)).map (block n l)

theorem flatten_map_block (n : Nat) (l : List α) (m : Nat) :
    ((List.range m).map (block n l)).flatten = l.take (m * n) := by
  induction m with
  | zero => simp
  | succ m ih =>
    rw [List.range_succ, List.map_append, List.flatten_append, ih]
    simp only [List.map_cons, List.map_nil, List.flatten_cons, List.flatten_nil, List.append_nil]
    rw [block, Nat.succ_mul, List.take_add]

/-- No element is lost or repeated, and the order is kept. -/
theorem blocks_flatten {n : Nat} (hn : 0 < n) (l : List α) : (blocks n l).flatten = l := by
  rw [blocks, flatten_map_block]
  apply List.take_of_length_le
  by_contra h
  exact Nat.lt_irrefl _ ((lt_ceilDiv_iff hn).mpr (Nat.lt_of_not_le h))

end EARanges.Support
