import EARanges.Support.Blocks
import EARanges.Support.Exec
import Mathlib.Data.Int.Order.Basic

/-!
# 64-bit differences and sizes

`range_difference_t` is a signed and `range_size_t` an unsigned 64-bit integer. Signed
arithmetic that leaves the type is undefined, here a fault; unsigned arithmetic wraps.
-/
namespace EARanges.Iterator
open EARanges.Support

/-- `numeric_limits<range_difference_t>::max()` and `min()`. -/
def diffMax : Int := 0x7fffffffffffffff

def diffMin : Int := -0x8000000000000000

/-- The result of a signed operation. -/
def signed (x : Int) : Exec Int :=
  if diffMin ≤ x ∧ x ≤ diffMax then .ok x else .error .fault

/-- The result of an unsigned operation. -/
def unsigned (x : Int) : Nat := (x % 0x10000000000000000).toNat

theorem signed_ok {x : Int} (hlow : diffMin ≤ x) (hhigh : x ≤ diffMax) : signed x = .ok x :=
  if_pos ⟨hlow, hhigh⟩

theorem diffMin_le {x : Int} (h : -diffMax ≤ x) : diffMin ≤ x := by
  unfold diffMin
  unfold diffMax at h
  omega

/-- The smallest value of the type is not needed where bounds are symmetric. -/
theorem signed_of_abs {x : Int} (hlow : -diffMax ≤ x) (hhigh : x ≤ diffMax) :
    signed x = .ok x := signed_ok (diffMin_le hlow) hhigh

theorem signed_fault {x : Int} (h : diffMax < x) : signed x = .error .fault :=
  if_neg fun hin => absurd hin.2 (Int.not_le.mpr h)

theorem unsigned_natCast {n : Nat} (h : n < 0x10000000000000000) : unsigned n = n := by
  unfold unsigned
  omega

/-- Truncating division of a distance rounded up away from zero. -/
theorem tdiv_ceilDiv {s : Nat} (hs : 0 < s) (d : Nat) :
    Int.tdiv ((d : Int) + (s - 1)) s = ceilDiv d s := by
  have hcast : (d : Int) + (s - 1) = (d + s - 1 : Nat) := by omega
  rw [hcast, ceilDiv]
  exact (Int.ofNat_tdiv _ _).symm

end EARanges.Iterator
