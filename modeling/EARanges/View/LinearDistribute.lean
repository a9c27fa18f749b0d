import EARanges.Support.Numbered
import Mathlib.Algebra.Order.Field.Rat
import Mathlib.Tactic.FieldSimp
import Mathlib.Tactic.Linarith
import Mathlib.Tactic.LinearCombination
import Mathlib.Tactic.Ring

/-!
# `linear_distribute_view`

view/linear_distribute.hpp, over the rationals. The view is its own cursor: `next` counts
`n_` down and recomputes the value from the far end, while the first value is the `from_`
the view was made with.
-/
namespace EARanges.View
open EARanges.Support

structure LinearDistributeView where
  from_ : ℚ
  to_ : ℚ
  delta_ : ℚ
  n_ : Int
  deriving DecidableEq, Repr

namespace LinearDistributeView

def read (v : LinearDistributeView) : ℚ := v.from_

/-- `equal(default_sentinel_t)`. -/
def equalSentinel (v : LinearDistributeView) : Bool := v.n_ == 0

def equal (v other : LinearDistributeView) : Exec Bool :=
  let eq := v.n_ == other.n_
  if v.to_ ≠ other.to_ then .error .fault
  else if eq && v.from_ != other.from_ then .error .fault
  else .ok eq

def next (v : LinearDistributeView) : Exec LinearDistributeView :=
  if 0 < v.n_ then
    let n_ := v.n_ - 1
    if n_ = 0 then .ok { v with from_ := v.to_, n_ }
    else .ok { v with from_ := v.to_ - v.delta_ * ((n_ - 1 : Int) : ℚ), n_ }
  else .error .fault

/-- The initialiser of `delta_`. -/
def delta (from_ to_ : ℚ) (n : Int) : ℚ :=
  if 1 < n then (to_ - from_) / ((n - 1 : Int) : ℚ) else 0

end LinearDistributeView

/-- `views::linear_distribute`, with the preconditions of the constructor. -/
def linearDistribute (from_ to_ : ℚ) (n : Int) : Exec LinearDistributeView :=
  if 0 < n ∧ from_ ≤ to_ then
    .ok { from_, to_, delta_ := LinearDistributeView.delta from_ to_ n, n_ := n }
  else .error .fault

namespace LinearDistributeView

def loop (from_ to_ : ℚ) (n : Int) : Loop LinearDistributeView ℚ where
  start := linearDistribute from_ to_ n
  atEnd v := .ok v.equalSentinel
  read v := .ok v.read
  next := next

/-- The cursors of one view. -/
inductive Reachable (from_ to_ : ℚ) (n : Int) : LinearDistributeView → Prop
  | begin {v : LinearDistributeView} : linearDistribute from_ to_ n = .ok v →
      Reachable from_ to_ n v
  | next {v v' : LinearDistributeView} : Reachable from_ to_ n v → v.next = .ok v' →
      Reachable from_ to_ n v'

/-- `n` values from `from_` to `to_` at equal distances; a single value is `to_`. -/
structure Distributes (from_ to_ : ℚ) (n : Nat) (xs : List ℚ) : Prop where
  length : xs.length = n
  value : 2 ≤ n → ∀ k < n, xs[k]? = some (from_ + k * (to_ - from_) / (n - 1))
  first : 2 ≤ n → xs.head? = some from_
  last : xs.getLast? = some to_
  sorted : xs.Pairwise (· ≤ ·)
  inside : ∀ x ∈ xs, from_ ≤ x ∧ x ≤ to_

/-- The view delivers such values, and its cursors are told apart by what is left. -/
structure Law (from_ to_ : ℚ) (n : Nat) : Prop where
  delivers : ∃ xs, (loop from_ to_ n).Delivers xs ∧ Distributes from_ to_ n xs
  cursors : ∀ c d, Reachable from_ to_ n c → Reachable from_ to_ n d → c.n_ = d.n_ →
    c.read = d.read

section
variable {from_ to_ : ℚ} {n : Nat}

/-- The cursor `i` steps from the first. -/
def cursorAt (from_ to_ : ℚ) (n i : Nat) : LinearDistributeView where
  from_ := if i < n then from_ + i * delta from_ to_ n else to_
  to_ := to_
  delta_ := delta from_ to_ n
  n_ := (n : Int) - i

def values (from_ to_ : ℚ) (n : Nat) : List ℚ :=
  (List.range n).map fun i : Nat => from_ + i * delta from_ to_ n

theorem linearDistribute_eq (hle : from_ ≤ to_) (hn : 1 ≤ n) :
    linearDistribute from_ to_ n = .ok (cursorAt from_ to_ n 0) := by
  rw [linearDistribute, if_pos ⟨by omega, hle⟩]
  simp [cursorAt, (by omega : 0 < n)]

theorem delta_eq (hn : 2 ≤ n) : delta from_ to_ n = (to_ - from_) / (n - 1) := by
  rw [delta, if_pos (by omega)]
  push_cast
  rfl

/-- `n - 1` distances lead from one end to the other. -/
theorem span_eq (from_ to_ : ℚ) (hn : 2 ≤ n) : to_ = from_ + (n - 1) * delta from_ to_ n := by
  have hcast : (2 : ℚ) ≤ n := by exact_mod_cast hn
  have hne : (n : ℚ) - 1 ≠ 0 := by linarith
  rw [delta_eq hn]
  field_simp
  ring

theorem delta_nonneg (hle : from_ ≤ to_) : 0 ≤ delta from_ to_ n := by
  unfold delta
  split
  next hn =>
    have hcast : (1 : ℚ) < n := by exact_mod_cast hn
    push_cast
    exact div_nonneg (by linarith) (by linarith)
  next => exact le_refl 0

/-- Counting from the far end gives the value counted from the near one. -/
theorem next_cursorAt {i : Nat} (hi : i < n) :
    (cursorAt from_ to_ n i).next = .ok (cursorAt from_ to_ n (i + 1)) := by
  unfold next cursorAt
  rw [if_pos (by simp only; omega)]
  by_cases hlast : i + 1 = n
  · rw [if_pos (by simp only; omega), if_neg (by omega : ¬ i + 1 < n)]
    congr 2
    push_cast
    ring
  · have hspan := span_eq from_ to_ (by omega : 2 ≤ n)
    rw [if_neg (by simp only; omega), if_pos (by omega : i + 1 < n)]
    congr 2
    · push_cast
      linear_combination hspan
    · simp only
      push_cast
      ring

theorem loop_numbers (hle : from_ ≤ to_) (hn : 1 ≤ n) :
    (loop from_ to_ n).Numbers (values from_ to_ n) fun i c =>
      i ≤ n ∧ c = cursorAt from_ to_ n i := by
  have hlength : (values from_ to_ n).length = n := by simp [values]
  refine { start := ?_, next := ?_, atEnd := ?_, read := ?_ }
  · exact ⟨_, linearDistribute_eq hle hn, Nat.zero_le n, rfl⟩
  · rintro i c ⟨-, rfl⟩ hi
    rw [hlength] at hi
    exact ⟨_, next_cursorAt hi, hi, rfl⟩
  · rintro i c ⟨hi, rfl⟩
    rw [hlength]
    simp only [loop, equalSentinel, cursorAt, Except.ok.injEq]
    rw [Bool.eq_iff_iff, beq_iff_eq, decide_eq_true_iff]
    omega
  · rintro i c x ⟨-, rfl⟩ hx
    obtain ⟨hi, rfl⟩ := List.getElem?_eq_some_iff.mp hx
    rw [hlength] at hi
    simp [loop, read, cursorAt, values, hi]

theorem delivers_values (hle : from_ ≤ to_) (hn : 1 ≤ n) :
    (loop from_ to_ n).Delivers (values from_ to_ n) :=
  (loop_numbers hle hn).delivers

/-- The cursors are numbered by what is left. -/
theorem Reachable.eq_cursorAt (hle : from_ ≤ to_) (hn : 1 ≤ n) {c : LinearDistributeView}
    (h : Reachable from_ to_ n c) : ∃ i ≤ n, c = cursorAt from_ to_ n i := by
  induction h with
  | begin hstart =>
    rw [linearDistribute_eq hle hn, Except.ok.injEq] at hstart
    exact ⟨0, Nat.zero_le n, hstart.symm⟩
  | next _ hnext ih =>
    obtain ⟨i, hi, rfl⟩ := ih
    have hlt : i < n := by
      by_contra hend
      rw [LinearDistributeView.next, if_neg (by simp only [cursorAt]; omega)] at hnext
      cases hnext
    rw [next_cursorAt hlt, Except.ok.injEq] at hnext
    exact ⟨i + 1, hlt, hnext.symm⟩

theorem reachable_eq (hle : from_ ≤ to_) (hn : 1 ≤ n) {c d : LinearDistributeView}
    (hc : Reachable from_ to_ n c) (hd : Reachable from_ to_ n d) (hleft : c.n_ = d.n_) :
    c = d := by
  obtain ⟨i, _, rfl⟩ := hc.eq_cursorAt hle hn
  obtain ⟨j, _, rfl⟩ := hd.eq_cursorAt hle hn
  simp only [cursorAt] at hleft
  rw [(by omega : i = j)]

theorem Reachable.to_eq (hle : from_ ≤ to_) (hn : 1 ≤ n) {c : LinearDistributeView}
    (h : Reachable from_ to_ n c) : c.to_ = to_ := by
  obtain ⟨i, _, rfl⟩ := h.eq_cursorAt hle hn
  rfl

/-- The assertions of `equal` hold of the cursors of one view. -/
theorem equal_eq (hle : from_ ≤ to_) (hn : 1 ≤ n) {c d : LinearDistributeView}
    (hc : Reachable from_ to_ n c) (hd : Reachable from_ to_ n d) :
    c.equal d = .ok (decide (c.n_ = d.n_)) := by
  have hto : c.to_ = d.to_ := (hc.to_eq hle hn).trans (hd.to_eq hle hn).symm
  unfold equal
  rw [if_neg (not_not.mpr hto)]
  by_cases hleft : c.n_ = d.n_
  · rw [reachable_eq hle hn hc hd hleft]
    simp
  · simp [hleft]

theorem getElem?_values {k : Nat} (hk : k < n) :
    (values from_ to_ n)[k]? = some (from_ + k * delta from_ to_ n) := by
  simp [values, hk]

/-- Two values or more are distributed as they should be. -/
theorem values_distributes (hle : from_ ≤ to_) (hn : 2 ≤ n) :
    Distributes from_ to_ n (values from_ to_ n) := by
  have hnonneg := delta_nonneg (n := n) hle
  have hspan := span_eq from_ to_ hn
  constructor
  · simp [values]
  · intro _ k hk
    rw [getElem?_values hk, delta_eq hn, mul_div_assoc]
  · intro _
    rw [List.head?_eq_getElem?, getElem?_values (by omega)]
    simp
  · have hlength : (values from_ to_ n).length = n := by simp [values]
    rw [List.getLast?_eq_getElem?, hlength, getElem?_values (by omega), Nat.cast_sub (by omega),
      Nat.cast_one, ← hspan]
  · rw [values, List.pairwise_map]
    refine List.pairwise_lt_range.imp fun hij => ?_
    have hcast := mul_le_mul_of_nonneg_right (Nat.cast_le (α := ℚ).mpr (Nat.le_of_lt hij)) hnonneg
    linarith
  · intro x hx
    obtain ⟨i, hi, rfl⟩ := List.mem_map.mp hx
    have hcast : (i : ℚ) ≤ n - 1 := by
      have hlt : (i + 1 : Nat) ≤ n := List.mem_range.mp hi
      have := Nat.cast_le (α := ℚ).mpr hlt
      push_cast at this
      linarith
    have hlow : 0 ≤ (i : ℚ) * delta from_ to_ n := mul_nonneg (Nat.cast_nonneg i) hnonneg
    have hhigh := mul_le_mul_of_nonneg_right hcast hnonneg
    constructor <;> linarith

end

/-- A single value is the `from_` of the view. -/
theorem values_one (from_ to_ : ℚ) : values from_ to_ 1 = [from_] := by
  simp [values, delta]

/-- Only a single value that is not `to_` breaks the law. -/
theorem linearDistribute_law_iff (from_ to_ : ℚ) (n : Nat) (hle : from_ ≤ to_) (hn : 1 ≤ n) :
    Law from_ to_ n ↔ n ≠ 1 ∨ from_ = to_ := by
  have hvalues := delivers_values hle hn
  constructor
  · intro hlaw
    obtain ⟨xs, hdelivers, hdistributes⟩ := hlaw.delivers
    rw [Returns.unique hdelivers hvalues] at hdistributes
    by_cases hone : n = 1
    · subst hone
      have hlast := hdistributes.last
      rw [values_one] at hlast
      exact .inr (Option.some.inj hlast)
    · exact .inl hone
  · intro hcond
    refine ⟨⟨_, hvalues, ?_⟩, fun c d hc hd hleft => by rw [reachable_eq hle hn hc hd hleft]⟩
    by_cases hone : n = 1
    · subst hone
      obtain rfl := hcond.resolve_left (fun h => h rfl)
      rw [values_one]
      constructor <;> simp
    · exact values_distributes hle (by omega)

theorem linearDistribute_law_iff_three : Law 0 1 3 ↔ 3 ≠ 1 ∨ (0 : ℚ) = 1 :=
  linearDistribute_law_iff 0 1 3 (by norm_num) (by decide)

/-- `linear_distribute(0, 1, 1)` delivers 0. -/
theorem linearDistribute_zero_one : ¬ Law 0 1 1 := by
  intro hlaw
  obtain ⟨xs, hdelivers, hdistributes⟩ := hlaw.delivers
  have hvalues : (loop 0 1 1).Delivers (values 0 1 1) := delivers_values (by norm_num) (by decide)
  rw [Returns.unique hdelivers hvalues, values_one] at hdistributes
  have hlast := Option.some.inj hdistributes.last
  norm_num at hlast

end LinearDistributeView

end EARanges.View
