import Mathlib.Data.Int.Bitwise
import Mathlib.Data.Nat.Bitwise

/-!
# Integers as two's complement words

`BitVec.ofInt w n` is the lower `w` bits of the infinite two's complement of `n`. The bitwise
operations on integers commute with it, and an integer of less than `2 ^ w` in absolute value
is read back from its word and its sign (`toNat_magnitude`).
-/
namespace EARanges.Support

variable {w : Nat}

theorem ofNat_ldiff (m n : Nat) :
    BitVec.ofNat w (Nat.ldiff m n) = BitVec.ofNat w m &&& ~~~BitVec.ofNat w n := by
  apply BitVec.eq_of_getLsbD_eq
  intro i hi
  simp only [BitVec.getLsbD_and, BitVec.getLsbD_not, BitVec.getLsbD_ofNat, Nat.testBit_ldiff, hi,
    decide_true, Bool.true_and]

/-! ## The word of a result -/

theorem ofInt_land (x y : Int) :
    BitVec.ofInt w (Int.land x y) = BitVec.ofInt w x &&& BitVec.ofInt w y := by
  cases x <;> cases y <;>
    simp [Int.land, ofNat_ldiff, BitVec.not_or, BitVec.and_comm]

theorem ofInt_lor (x y : Int) :
    BitVec.ofInt w (Int.lor x y) = BitVec.ofInt w x ||| BitVec.ofInt w y := by
  cases x <;> cases y <;>
    simp [Int.lor, ofNat_ldiff, BitVec.not_and, BitVec.or_comm]

theorem ofInt_xor (x y : Int) :
    BitVec.ofInt w (Int.xor x y) = BitVec.ofInt w x ^^^ BitVec.ofInt w y := by
  cases x <;> cases y <;>
    simp [Int.xor, ← BitVec.not_xor_left, ← BitVec.not_xor_right]

/-! ## The sign of a result -/

theorem natCast_not_neg (n : Nat) : ¬ (n : Int) < 0 := Int.not_lt.mpr (Int.natCast_nonneg n)

theorem land_neg_iff (x y : Int) : Int.land x y < 0 ↔ x < 0 ∧ y < 0 := by
  cases x <;> cases y <;> simp [Int.land, natCast_not_neg, Int.negSucc_lt_zero]

theorem lor_neg_iff (x y : Int) : Int.lor x y < 0 ↔ x < 0 ∨ y < 0 := by
  cases x <;> cases y <;> simp [Int.lor, natCast_not_neg, Int.negSucc_lt_zero]

theorem xor_neg_iff (x y : Int) : Int.xor x y < 0 ↔ ¬ (x < 0 ↔ y < 0) := by
  cases x <;> cases y <;> simp [Int.xor, natCast_not_neg, Int.negSucc_lt_zero]

/-! ## Reading back -/

theorem toNat_ofInt_of_nonneg {n : Int} (hn : 0 ≤ n) (h : n.natAbs < 2 ^ w) :
    (BitVec.ofInt w n).toNat = n.natAbs := by
  have hlt : n < ((2 ^ w : Nat) : Int) := by omega
  rw [BitVec.toNat_ofInt, Int.emod_eq_of_lt hn hlt]
  omega

/-- The word of the absolute value. -/
theorem toNat_magnitude {n : Int} (h : n.natAbs < 2 ^ w) :
    (if n < 0 then -BitVec.ofInt w n else BitVec.ofInt w n).toNat = n.natAbs := by
  split
  next hneg =>
    have habs := toNat_ofInt_of_nonneg (w := w) (Int.neg_nonneg_of_nonpos (Int.le_of_lt hneg))
      (by rwa [Int.natAbs_neg])
    rw [← BitVec.ofInt_neg, habs, Int.natAbs_neg]
  next hneg => exact toNat_ofInt_of_nonneg (Int.not_lt.mp hneg) h

end EARanges.Support
