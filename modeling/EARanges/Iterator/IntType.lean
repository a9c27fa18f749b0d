import EARanges.Support.Exec
import Mathlib.Algebra.Group.Int.Defs
import Mathlib.Algebra.Group.Nat.Defs
import Mathlib.Data.Int.Order.Basic

/-!
# Fixed-width integer types

The integer types of 8 to 64 bits. A value carries its bounds. A conversion wraps; signed
arithmetic that leaves the type is undefined, here a fault, and unsigned arithmetic wraps.
Operands of types narrower than `int` are promoted to it.
-/
namespace EARanges.Iterator
open EARanges.Support

structure IntType where
  signed : Bool
  width : Nat
  fixed : width = 8 ∨ width = 16 ∨ width = 32 ∨ width = 64
  deriving DecidableEq, Repr

namespace IntType

def int : IntType := ⟨true, 32, by decide⟩

def int64 : IntType := ⟨true, 64, by decide⟩

def uint64 : IntType := ⟨false, 64, by decide⟩

def min (t : IntType) : Int := if t.signed then -2 ^ (t.width - 1) else 0

def max (t : IntType) : Int := if t.signed then 2 ^ (t.width - 1) - 1 else 2 ^ t.width - 1

abbrev Value (t : IntType) := { n : Int // t.min ≤ n ∧ n ≤ t.max }

instance (t : IntType) (n : Int) : Decidable (t.min ≤ n ∧ n ≤ t.max) := inferInstance

def wrap (t : IntType) (n : Int) : Int :=
  if t.signed then n.bmod (2 ^ t.width) else n % 2 ^ t.width

/-- `make_signed`. -/
def makeSigned (t : IntType) : IntType := { t with signed := true }

theorem width_pos (t : IntType) : 0 < t.width := by
  have hfixed := t.fixed
  omega

theorem width_le (t : IntType) : t.width ≤ 64 := by
  have hfixed := t.fixed
  omega

theorem two_pow_pred (t : IntType) : (2 : Nat) ^ t.width = 2 * 2 ^ (t.width - 1) := by
  have hwidth : t.width = t.width - 1 + 1 := (Nat.sub_add_cancel t.width_pos).symm
  rw [hwidth, Nat.pow_succ, Nat.mul_comm, Nat.add_sub_cancel]

theorem wrap_bounds (t : IntType) (n : Int) : t.min ≤ t.wrap n ∧ t.wrap n ≤ t.max := by
  have hpow := t.two_pow_pred
  have hpos : (0 : Int) < 2 ^ t.width := Int.pow_pos (by decide)
  unfold wrap min max
  cases t.signed with
  | true =>
    have hlow := Int.le_bmod (x := n) (m := 2 ^ t.width) (Nat.two_pow_pos _)
    have hhigh := Int.bmod_lt (x := n) (m := 2 ^ t.width) (Nat.two_pow_pos _)
    rw [hpow] at hlow hhigh ⊢
    push_cast at hlow hhigh
    simp only [if_true]
    omega
  | false =>
    have hlow := Int.emod_nonneg n (Int.ne_of_gt hpos)
    have hhigh := Int.emod_lt_of_pos n hpos
    simp only [Bool.false_eq_true, if_false]
    omega

/-- `static_cast<T>(n)`. -/
def convert (t : IntType) (n : Int) : t.Value := ⟨t.wrap n, t.wrap_bounds n⟩

theorem wrap_of_bounds {t : IntType} {n : Int} (h : t.min ≤ n ∧ n ≤ t.max) : t.wrap n = n := by
  have hpow := t.two_pow_pred
  unfold wrap
  unfold min max at h
  cases ht : t.signed with
  | true =>
    simp only [ht, if_true] at h ⊢
    refine Int.bmod_eq_of_le_mul_two ?_ ?_ <;> rw [hpow] <;> push_cast <;> omega
  | false =>
    simp only [ht, Bool.false_eq_true, if_false] at h ⊢
    exact Int.emod_eq_of_lt h.1 (by omega)

theorem convert_value {t : IntType} (x : t.Value) : t.convert x.1 = x :=
  Subtype.ext (wrap_of_bounds x.2)

/-- A word is converted modulo its number of values, so negation may be done on either side. -/
theorem convert_neg_convert (t : IntType) (n : Int) :
    t.convert (-(t.convert n).1) = t.convert (-n) := by
  refine Subtype.ext ?_
  simp only [convert, wrap]
  cases t.signed with
  | true =>
    simp only [if_true]
    exact Int.bmod_neg_bmod
  | false =>
    simp only [Bool.false_eq_true, if_false]
    rw [Int.neg_emod_eq_sub_emod, Int.sub_emod_emod, ← Int.neg_emod_eq_sub_emod]

/-- The result of an arithmetic operation of the type. -/
def result (t : IntType) (n : Int) : Exec t.Value :=
  if h : t.min ≤ n ∧ n ≤ t.max then .ok ⟨n, h⟩
  else if t.signed then .error .fault
  else .ok (t.convert n)

/-- The type an operand of the type is promoted to. -/
def promoted (t : IntType) : IntType := if t.width < int.width then int else t

/-- `x += n`, for `n` of the type: the sum of the promoted operands, converted back. `x -= n`,
`++x` and `--x` are the sums with `-n`, 1 and -1. -/
def plusAssign (t : IntType) (x : t.Value) (n : Int) : Exec t.Value := do
  let sum ← t.promoted.result (x.1 + n)
  .ok (t.convert sum.1)

theorem result_ok {t : IntType} {n : Int} (h : t.min ≤ n ∧ n ≤ t.max) :
    t.result n = .ok ⟨n, h⟩ := dif_pos h

theorem result_fault {t : IntType} {n : Int} (ht : t.signed = true)
    (h : ¬ (t.min ≤ n ∧ n ≤ t.max)) : t.result n = .error .fault := by
  rw [result, dif_neg h, if_pos ht]

/-- No value of a type has more than 64 bits. -/
theorem natAbs_lt (t : IntType) {n : Int} (h : t.min ≤ n ∧ n ≤ t.max) : n.natAbs < 2 ^ 64 := by
  have hpow := t.two_pow_pred
  have hwidth : (2 : Int) ^ t.width ≤ 2 ^ 64 := by
    have hnat : 2 ^ t.width ≤ 2 ^ 64 := Nat.pow_le_pow_right (by decide) t.width_le
    exact_mod_cast hnat
  have hcast : (2 : Int) ^ t.width = 2 * 2 ^ (t.width - 1) := by exact_mod_cast hpow
  have hpos : (0 : Int) < 2 ^ t.width := Int.pow_pos (by decide)
  unfold min max at h
  split at h <;> omega

theorem min_of_signed {t : IntType} (ht : t.signed = true) : t.min = -2 ^ (t.width - 1) :=
  if_pos ht

theorem max_of_signed {t : IntType} (ht : t.signed = true) : t.max = 2 ^ (t.width - 1) - 1 :=
  if_pos ht

theorem min_of_unsigned {t : IntType} (ht : t.signed = false) : t.min = 0 := by
  rw [min, ht, if_neg Bool.false_ne_true]

theorem nonneg_of_unsigned {t : IntType} {x : t.Value} (ht : t.signed = false) : 0 ≤ x.1 :=
  min_of_unsigned ht ▸ x.2.1

theorem zero_bounds (t : IntType) : t.min ≤ 0 ∧ 0 ≤ t.max := by
  have hpow : (0 : Int) < 2 ^ (t.width - 1) := Int.pow_pos (by decide)
  have hpow' : (0 : Int) < 2 ^ t.width := Int.pow_pos (by decide)
  unfold min max
  split <;> omega

/-- A type of width `w` has `2 ^ w` values. -/
theorem span_eq (t : IntType) : t.max - t.min = 2 ^ t.width - 1 := by
  have hpow : (2 : Int) ^ t.width = 2 * 2 ^ (t.width - 1) := by exact_mod_cast t.two_pow_pred
  unfold min max
  split <;> omega

theorem one_lt_span (t : IntType) : 1 < t.max - t.min := by
  have hpow : (2 : Int) ^ 8 ≤ 2 ^ t.width := by
    have hfixed := t.fixed
    have hnat : 2 ^ 8 ≤ 2 ^ t.width := Nat.pow_le_pow_right (by decide) (by omega)
    exact_mod_cast hnat
  rw [t.span_eq]
  omega

theorem promoted_of_wide {t : IntType} (h : 32 ≤ t.width) : t.promoted = t :=
  if_neg (Nat.not_lt.mpr h)

theorem promoted_signed {t : IntType} (ht : t.signed = true) : t.promoted.signed = true := by
  unfold promoted
  split
  · rfl
  · exact ht

/-- A value has its negation in the promoted type unless it is the minimum of a type that is
not promoted. -/
theorem neg_promoted_iff {t : IntType} {x : t.Value} (ht : t.signed = true) :
    t.promoted.min ≤ -x.1 ∧ -x.1 ≤ t.promoted.max ↔ ¬ (32 ≤ t.width ∧ x.1 = t.min) := by
  have hbounds := x.2
  have hmin := min_of_signed ht
  have hmax := max_of_signed ht
  have hpos : (0 : Int) < 2 ^ (t.width - 1) := Int.pow_pos (by decide)
  by_cases hnarrow : t.width < 32
  · have hint : t.promoted = int := if_pos hnarrow
    have hpow : (2 : Int) ^ (t.width - 1) ≤ 2 ^ 30 := by
      have hnat : 2 ^ (t.width - 1) ≤ 2 ^ 30 := Nat.pow_le_pow_right (by decide) (by omega)
      exact_mod_cast hnat
    have hlow : int.min = -2 ^ 31 := rfl
    have hhigh : int.max = 2 ^ 31 - 1 := rfl
    rw [hint, hlow, hhigh]
    omega
  · rw [promoted_of_wide (Nat.not_lt.mp hnarrow)]
    omega

theorem value_promoted {t : IntType} (x : t.Value) :
    t.promoted.min ≤ x.1 ∧ x.1 ≤ t.promoted.max := by
  have hx := x.2
  by_cases hnarrow : t.width < 32
  · have hint : t.promoted = int := if_pos hnarrow
    have hpow : (2 : Int) ^ t.width ≤ 2 ^ 16 := by
      have hfixed := t.fixed
      have hnat : 2 ^ t.width ≤ 2 ^ 16 := Nat.pow_le_pow_right (by decide) (by omega)
      exact_mod_cast hnat
    have hspan := t.span_eq
    have hzero := t.zero_bounds
    have hlow : int.min = -2 ^ 31 := rfl
    have hhigh : int.max = 2 ^ 31 - 1 := rfl
    rw [hint, hlow, hhigh]
    omega
  · rwa [promoted_of_wide (Nat.not_lt.mp hnarrow)]

theorem plusAssign_ok {t : IntType} {x y : t.Value} {n : Int} (h : x.1 + n = y.1) :
    t.plusAssign x n = .ok y := by
  rw [plusAssign, h, result_ok (value_promoted y), exec_bind_ok, convert_value]

end IntType

end EARanges.Iterator
