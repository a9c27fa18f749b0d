import Mathlib.Data.BitVec
import Mathlib.Algebra.Ring.Parity
import Mathlib.Tactic.Ring

/-!
# Reversing a computation

A run of steps is undone by undoing its steps from the last to the first. For words of a
fixed width, multiplying by an odd word and folding the upper half into the lower can be
undone.
-/
namespace EARanges.Support

/-! ## Steps -/

/-- On states with `P`, which `f` keeps, `g` takes `f` back. -/
structure Undoes {σ : Type} (P : σ → Prop) (f g : σ → σ) : Prop where
  keeps : ∀ s, P s → P (f s)
  undo : ∀ s, P s → g (f s) = s

namespace Undoes

variable {σ α : Type} {P : σ → Prop}

theorem id : Undoes P (fun s => s) (fun s => s) := ⟨fun _ hs => hs, fun _ _ => rfl⟩

theorem comp {f g f' g' : σ → σ} (h : Undoes P f g) (h' : Undoes P f' g') :
    Undoes P (fun s => f' (f s)) (fun s => g (g' s)) where
  keeps s hs := h'.keeps _ (h.keeps s hs)
  undo s hs := by rw [h'.undo _ (h.keeps s hs), h.undo s hs]

theorem injOn {f g : σ → σ} (h : Undoes P f g) {s s' : σ} (hs : P s) (hs' : P s')
    (heq : f s = f s') : s = s' := by
  rw [← h.undo s hs, heq, h.undo s' hs']

/-- A loop is undone by the loop that undoes its steps in the reverse order. -/
theorem foldl {step unstep : α → σ → σ} (h : ∀ a, Undoes P (step a) (unstep a)) (l : List α) :
    Undoes P (fun s => l.foldl (fun s a => step a s) s)
      (fun s => l.reverse.foldl (fun s a => unstep a s) s) := by
  induction l with
  | nil => exact id
  | cons a l ih =>
    simpa only [List.foldl_cons, List.reverse_cons, List.foldl_append, List.foldl_nil] using
      (h a).comp ih

/-- The loop from the last step to the first is undone by the loop in order. -/
theorem foldl_reverse {step unstep : α → σ → σ} (h : ∀ a, Undoes P (step a) (unstep a))
    (l : List α) :
    Undoes P (fun s => l.reverse.foldl (fun s a => step a s) s)
      (fun s => l.foldl (fun s a => unstep a s) s) := by
  simpa only [List.reverse_reverse] using foldl h l.reverse

end Undoes

/-! ## Words -/

section Words

variable {w : Nat}

theorem odd_pow_two_pow {R : Type} [CommRing R] {x : R} (hx : Odd x) (k : Nat) :
    ∃ t, x ^ 2 ^ k = 1 + 2 ^ (k + 1) * t := by
  induction k with
  | zero =>
    obtain ⟨m, rfl⟩ := hx
    exact ⟨m, by ring⟩
  | succ k ih =>
    obtain ⟨t, ht⟩ := ih
    refine ⟨t + 2 ^ k * t ^ 2, ?_⟩
    rw [pow_succ 2 k, pow_mul, ht]
    ring

theorem two_pow_width : (2 : BitVec w) ^ w = 0 := by
  calc
    (2 : BitVec w) ^ w = ((2 ^ w : Nat) : BitVec w) := by rw [Nat.cast_pow, Nat.cast_ofNat]
    _ = BitVec.ofNat w (2 ^ w) := BitVec.natCast_eq_ofNat w _
    _ = 0 := by
      rw [← BitVec.toNat_inj, BitVec.toNat_ofNat, Nat.mod_self]
      rfl

theorem odd_pow_modulus {x : BitVec w} (hx : Odd x) : x ^ 2 ^ w = 1 := by
  obtain ⟨t, ht⟩ := odd_pow_two_pow hx w
  rw [ht, pow_succ, two_pow_width, zero_mul, zero_mul, add_zero]

/-- The last power before one is the inverse. -/
theorem odd_mul_pow {x : BitVec w} (hx : Odd x) : x * x ^ (2 ^ w - 1) = 1 := by
  rw [← pow_succ', Nat.sub_add_cancel Nat.one_le_two_pow, odd_pow_modulus hx]

theorem mul_odd_cancel {x y z : BitVec w} (hz : Odd z) (h : x * z = y * z) : x = y := by
  calc
    x = x * (z * z ^ (2 ^ w - 1)) := by rw [odd_mul_pow hz, mul_one]
    _ = y * (z * z ^ (2 ^ w - 1)) := by rw [← mul_assoc, h, mul_assoc]
    _ = y := by rw [odd_mul_pow hz, mul_one]

/-- Only the exponent modulo the number of words matters. -/
theorem odd_pow_mod {x : BitVec w} (hx : Odd x) (n : Nat) : x ^ (n % 2 ^ w) = x ^ n := by
  conv_rhs => rw [← Nat.mod_add_div n (2 ^ w), pow_add, pow_mul, odd_pow_modulus hx, one_pow,
    mul_one]

/-- `v ^= v >> s`. -/
def xorShift (s : Nat) (v : BitVec w) : BitVec w := v ^^^ (v >>> s)

theorem xorShift_xorShift {s : Nat} (hs : w ≤ 2 * s) (v : BitVec w) :
    xorShift s (xorShift s v) = v := by
  have hgone : v >>> s >>> s = 0#w := by
    rw [← BitVec.shiftRight_add]
    exact BitVec.ushiftRight_eq_zero (by omega)
  unfold xorShift
  rw [BitVec.ushiftRight_xor_distrib, hgone, BitVec.xor_zero, BitVec.xor_assoc, BitVec.xor_self,
    BitVec.xor_zero]

end Words

end EARanges.Support
