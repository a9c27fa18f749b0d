import EARanges.Support.Blocks
import Mathlib.Data.List.NodupEquivFin

/-!
# Every `stride`-th position of a sequence

A sequence of `length` positions is marked at the multiples of `stride` and at its end.
Mark number `i` is at `pos i`; there are `count` of them before the end, which is mark
number `count`. Counted in whole strides the end is passed by `overshoot`.
-/
namespace EARanges.Support

structure Strides where
  length : Nat
  stride : Nat
  stride_pos : 0 < stride

namespace Strides

def count (g : Strides) : Nat := ceilDiv g.length g.stride

def pos (g : Strides) (i : Nat) : Nat := min (i * g.stride) g.length

/-- The number of the mark at `p`. -/
def index (g : Strides) (p : Nat) : Nat := ceilDiv p g.stride

def overshoot (g : Strides) : Nat := g.count * g.stride - g.length

theorem lt_count_iff (g : Strides) {i : Nat} : i < g.count ↔ i * g.stride < g.length :=
  lt_ceilDiv_iff g.stride_pos

theorem length_le_count (g : Strides) : g.length ≤ g.count * g.stride :=
  Nat.le_of_not_lt fun h => Nat.lt_irrefl _ (g.lt_count_iff.mpr h)

theorem count_mul_lt (g : Strides) : g.count * g.stride < g.length + g.stride := by
  have hs := g.stride_pos
  rcases Nat.eq_zero_or_pos g.count with hzero | hpos
  · rw [hzero, Nat.zero_mul]
    omega
  · have hlast := g.lt_count_iff.mp (Nat.sub_lt hpos Nat.one_pos)
    have hmul : g.count * g.stride = (g.count - 1) * g.stride + g.stride := by
      rw [← Nat.succ_mul, Nat.succ_eq_add_one, Nat.sub_add_cancel hpos]
    omega

theorem overshoot_lt (g : Strides) : g.overshoot < g.stride := by
  have := g.count_mul_lt
  have := g.stride_pos
  unfold overshoot
  omega

theorem pos_of_lt (g : Strides) {i : Nat} (hi : i < g.count) : g.pos i = i * g.stride :=
  Nat.min_eq_left (Nat.le_of_lt (g.lt_count_iff.mp hi))

theorem pos_lt (g : Strides) {i : Nat} (hi : i < g.count) : g.pos i < g.length := by
  rw [g.pos_of_lt hi]
  exact g.lt_count_iff.mp hi

theorem pos_zero (g : Strides) : g.pos 0 = 0 := by
  rw [pos, Nat.zero_mul, Nat.zero_min]

theorem pos_count (g : Strides) : g.pos g.count = g.length :=
  Nat.min_eq_right g.length_le_count

theorem pos_le (g : Strides) (i : Nat) : g.pos i ≤ g.length := Nat.min_le_right _ _

/-- Only the last cursor stands at the end. -/
theorem pos_eq_length_iff (g : Strides) {i : Nat} (hi : i ≤ g.count) :
    g.pos i = g.length ↔ i = g.count := by
  constructor
  · intro h
    by_contra hne
    have := g.pos_lt (Nat.lt_of_le_of_ne hi hne)
    omega
  · rintro rfl
    exact g.pos_count

theorem pos_add (g : Strides) {i k : Nat} (hi : i < g.count) :
    min (g.pos i + k * g.stride) g.length = g.pos (i + k) := by
  rw [g.pos_of_lt hi, pos, Nat.add_mul]

/-- Cursor `i` lies `i` strides from the begin, or the overshoot less at the end. -/
theorem pos_add_overshoot (g : Strides) {i : Nat} (hi : i ≤ g.count) :
    g.pos i + (if i = g.count then g.overshoot else 0) = i * g.stride := by
  have := g.length_le_count
  split
  next h =>
    subst h
    rw [g.pos_count, overshoot]
    omega
  next h => exact g.pos_of_lt (Nat.lt_of_le_of_ne hi h)

theorem pos_mono (g : Strides) {i j : Nat} (hij : i ≤ j) : g.pos i ≤ g.pos j := by
  have := Nat.mul_le_mul_right g.stride hij
  unfold pos
  omega

/-- Between cursors `i ≤ j` there are `j - i` strides. -/
theorem ceilDiv_pos (g : Strides) {i j : Nat} (hij : i ≤ j) (hj : j ≤ g.count) :
    ceilDiv (g.pos j - g.pos i) g.stride = j - i := by
  symm
  rcases Nat.eq_or_lt_of_le hij with rfl | hlt
  · rw [Nat.sub_self, Nat.sub_self, ceilDiv_zero]
  · have hi : g.pos i = i * g.stride := g.pos_of_lt (by omega)
    have hmul : (j - i) * g.stride = j * g.stride - i * g.stride := Nat.sub_mul _ _ _
    have hle : g.pos j ≤ j * g.stride := Nat.min_le_left _ _
    have hprev := g.lt_count_iff (i := j - 1)
    have hpred : j * g.stride = (j - 1) * g.stride + g.stride := by
      rw [← Nat.succ_mul, Nat.succ_eq_add_one, Nat.sub_add_cancel (by omega)]
    have hspan : (j - i - 1) * g.stride = (j - 1) * g.stride - i * g.stride := by
      rw [← Nat.sub_mul]
      congr 1
      omega
    have hstart : i * g.stride ≤ (j - 1) * g.stride := Nat.mul_le_mul_right _ (by omega)
    have hpos := g.stride_pos
    have hin : (j - 1) * g.stride < g.length := hprev.mp (by omega)
    apply ceilDiv_unique hpos
    · omega
    · right
      unfold pos at hle ⊢
      omega

theorem index_pos (g : Strides) {i : Nat} (hi : i ≤ g.count) : g.index (g.pos i) = i := by
  have hcount := g.ceilDiv_pos (Nat.zero_le i) hi
  rwa [g.pos_zero, Nat.sub_zero, Nat.sub_zero] at hcount

theorem overshoot_eq (g : Strides) :
    g.overshoot = if g.length % g.stride ≠ 0 then g.stride - g.length % g.stride else 0 := by
  have hdiv := Nat.div_add_mod g.length g.stride
  rw [Nat.mul_comm] at hdiv
  have hmul : (g.length / g.stride + 1) * g.stride = g.length / g.stride * g.stride + g.stride :=
    Nat.succ_mul _ _
  rw [overshoot, count, ceilDiv_eq g.stride_pos]
  split <;> omega

end Strides

/-- The elements at the multiples of a stride. -/
theorem sublist_of_multiples {α : Type} {step : Nat} (hstep : 0 < step) {r l : List α}
    (h : ∀ i : Nat, r[i]? = l[i * step]?) : r.Sublist l :=
  List.sublist_iff_exists_orderEmbedding_getElem?_eq.mpr
    ⟨.ofStrictMono (· * step) fun _ _ hlt => Nat.mul_lt_mul_of_pos_right hlt hstep, h⟩

end EARanges.Support
