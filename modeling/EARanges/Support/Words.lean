import Mathlib.Algebra.Order.Group.Nat
import Mathlib.Tactic.Ring

/-!
# Streams of random words, and multiplying and shifting

A generator is the stream of the words it will deliver. A word `x` is scaled to a range
by the upper half of the 64-bit product `x * range`. Words of 32 bits reach no value from
`range` on (`mulShift_lt_range`); words of 64 bits overflow the product and reach every
value of 32 bits (`exists_mulShift`).
-/
namespace EARanges.Support

/-- The words a generator delivers. -/
structure WordStream (bits : Nat) where
  word : Nat → Nat
  word_lt : ∀ n, word n < 2 ^ bits

namespace WordStream

variable {bits : Nat}

/-- The generator that repeats one word. -/
def const (x : Nat) (hx : x < 2 ^ bits) : WordStream bits := ⟨fun _ => x, fun _ => hx⟩

@[simp] theorem const_word (x : Nat) (hx : x < 2 ^ bits) (n : Nat) : (const x hx).word n = x := rfl

/-- The generator without its first word. -/
def tail (g : WordStream bits) : WordStream bits := ⟨fun n => g.word (n + 1), fun _ => g.word_lt _⟩

end WordStream

/-- The upper half of a product of 64 bits. -/
def mulShift (x range : Nat) : Nat := x * range % 0x10000000000000000 / 0x100000000

theorem mulShift_lt (x range : Nat) : mulShift x range < 0x100000000 := by
  unfold mulShift
  omega

@[simp] theorem mulShift_zero_left (range : Nat) : mulShift 0 range = 0 := by
  rw [mulShift, Nat.zero_mul]

@[simp] theorem mulShift_zero_right (x : Nat) : mulShift x 0 = 0 := by
  rw [mulShift, Nat.mul_zero]

/-- A word of 32 bits is scaled below the range. -/
theorem mulShift_lt_range {x range : Nat} (hx : x < 0x100000000) (hrange : 0 < range) :
    mulShift x range < range := by
  rcases Nat.lt_or_ge range 0x100000000 with hsmall | hlarge
  · have hprod : x * range < 0x100000000 * range := Nat.mul_lt_mul_of_pos_right hx hrange
    unfold mulShift
    omega
  · exact Nat.lt_of_lt_of_le (mulShift_lt x range) hlarge

/-- The first multiple of the range past `u * 2 ^ 32` is less than `2 ^ 32` away from it. -/
theorem exists_mulShift {u range : Nat} (hu : u < 0x100000000) (hrange : 0 < range)
    (hlt : range < 0x100000000) : ∃ x, x < 0x10000000000000000 ∧ mulShift x range = u := by
  have hdiv := Nat.div_add_mod (u * 0x100000000 + (range - 1)) range
  have hmod := Nat.mod_lt (u * 0x100000000 + (range - 1)) hrange
  have hcomm := Nat.mul_comm range ((u * 0x100000000 + (range - 1)) / range)
  have hle := Nat.div_le_self (u * 0x100000000 + (range - 1)) range
  refine ⟨(u * 0x100000000 + (range - 1)) / range, by omega, ?_⟩
  unfold mulShift
  omega

/-- The largest product: words of 64 bits reach the upper part of the 32-bit values. -/
theorem le_mulShift_div {range : Nat} (hrange : 0 < range) (hle : range ≤ 0x8000000000000000) :
    0x80000000 ≤ mulShift (0xffffffffffffffff / range) range := by
  have hdiv := Nat.div_add_mod 0xffffffffffffffff range
  have hmod := Nat.mod_lt 0xffffffffffffffff hrange
  have hcomm := Nat.mul_comm range (0xffffffffffffffff / range)
  unfold mulShift
  omega

end EARanges.Support
