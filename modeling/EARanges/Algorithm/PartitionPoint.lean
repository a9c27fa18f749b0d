import EARanges.Support.InPlace
import EARanges.Support.StableOrder

/-!
# `partition_point`, `lower_bound` and `upper_bound`

algorithm/partition_point.hpp, aux_/partition_point_n.hpp, lower_bound.hpp and
upper_bound.hpp. The range is a list and the result an index; `sized` chooses between
the bisection of the whole range and the exponential probe before it. On a range that
the predicate partitions, both return the boundary.
-/
namespace EARanges.Algorithm
open EARanges.Support

variable {α κ : Type}

/-- The `do` loop of `partition_point_n`. -/
def partitionPointLoop (test : α → Bool) (l : List α) : Nat → Nat → Nat → Exec Nat
  | 0, _, _ => .error .fuel
  | fuel + 1, first, d => do
    let half := d / 2
    let middle := first + half
    let x ← deref l middle
    let (first, d) := if test x then (middle + 1, d - (half + 1)) else (first, half)
    if d = 0 then .ok first else partitionPointLoop test l fuel first d

def partitionPointN (test : α → Bool) (l : List α) (first d : Nat) : Exec Nat :=
  if 0 < d then partitionPointLoop test l d first d else .ok first

/-- The `while(true)` loop of `partition_point`, which doubles `len`. -/
def partitionPointProbe (test : α → Bool) (l : List α) : Nat → Nat → Nat → Exec Nat
  | 0, _, _ => .error .fuel
  | fuel + 1, first, len => do
    -- `advance(mid, len, last)` stops at `last` and returns what is left of `len`
    let mid := min (first + len) l.length
    let d := len - (mid - first)
    if mid = l.length then partitionPointN test l first (len - d)
    else
      let x ← deref l mid
      if !test x then partitionPointN test l first (len - d)
      else partitionPointProbe test l fuel mid (len * 2)

def partitionPoint (sized : Bool) (test : α → Bool) (l : List α) : Exec Nat :=
  if sized then partitionPointN test l 0 l.length
  else partitionPointProbe test l (l.length + 1) 0 1

def lowerBound (pred : κ → κ → Bool) (proj : α → κ) (sized : Bool) (l : List α) (val : κ) :
    Exec Nat :=
  partitionPoint sized (fun x => pred (proj x) val) l

def upperBound (pred : κ → κ → Bool) (proj : α → κ) (sized : Bool) (l : List α) (val : κ) :
    Exec Nat :=
  partitionPoint sized (fun x => !pred val (proj x)) l

/-- The first `k` elements satisfy the test and no later one does. -/
def PartitionedAt (test : α → Bool) (l : List α) (k : Nat) : Prop :=
  k ≤ l.length ∧ ∀ i x, l[i]? = some x → (test x = true ↔ i < k)

/-- Between `first` and `last`, `r` is where the test turns from true to false, as far as
its two neighbours show. -/
structure Boundary (test : α → Bool) (l : List α) (first last r : Nat) : Prop where
  first_le : first ≤ r
  le_last : r ≤ last
  before : ∀ (i : Nat) x, first ≤ i → i + 1 = r → l[i]? = some x → test x = true
  behind : ∀ x, r < last → l[r]? = some x → test x = false

section
variable {test : α → Bool} {l : List α} {first last mid r : Nat}

/-- A partitioned range has one boundary. -/
theorem Boundary.eq_of_partitionedAt {k : Nat} (hr : Boundary test l first last r)
    (h : PartitionedAt test l k) (hfirst : first ≤ k) (hk : k ≤ last) (hlast : last ≤ l.length) :
    r = k := by
  have hle := hr.le_last
  obtain hlt | rfl | hgt := Nat.lt_trichotomy r k
  · have hx : l[r]? = some l[r] := List.getElem?_eq_getElem (by omega)
    have htrue := (h.2 r _ hx).mpr hlt
    rw [hr.behind _ (by omega) hx] at htrue
    cases htrue
  · rfl
  · obtain ⟨i, rfl⟩ : ∃ i, r = i + 1 := ⟨r - 1, by omega⟩
    have hx : l[i]? = some l[i] := List.getElem?_eq_getElem (by omega)
    have hlt := (h.2 i _ hx).mp (hr.before i _ (by omega) rfl hx)
    omega

theorem boundary_empty (test : α → Bool) (l : List α) (first : Nat) :
    Boundary test l first first first where
  first_le := Nat.le_refl _
  le_last := Nat.le_refl _
  before i x hi hir _ := by omega
  behind x hlt _ := absurd hlt (Nat.lt_irrefl _)

/-- In front of the stretch lies an element that satisfies the test. -/
theorem Boundary.extend_front (hr : Boundary test l (mid + 1) last r) (hfirst : first ≤ mid)
    {x : α} (hx : l[mid]? = some x) (htest : test x = true) : Boundary test l first last r where
  first_le := by have := hr.first_le; omega
  le_last := hr.le_last
  before i y hi hir hy := by
    by_cases hin : mid + 1 ≤ i
    · exact hr.before i y hin hir hy
    · obtain rfl : i = mid := by have := hr.first_le; omega
      rw [eq_of_read hx hy]
      exact htest
  behind := hr.behind

/-- The first element of the stretch satisfies the test. -/
theorem Boundary.extend_front_of_first {start : Nat} (hr : Boundary test l first last r)
    (hstart : start ≤ first) (hlt : first < last) {x : α} (hx : l[first]? = some x)
    (htest : test x = true) : Boundary test l start last r where
  first_le := by have := hr.first_le; omega
  le_last := hr.le_last
  before i y hi hir hy := by
    by_cases hin : first ≤ i
    · exact hr.before i y hin hir hy
    · obtain rfl : r = first := by have := hr.first_le; omega
      rw [hr.behind x hlt hx] at htest
      cases htest
  behind := hr.behind

/-- Behind the stretch lies an element that does not satisfy the test. -/
theorem Boundary.extend_back (hr : Boundary test l first mid r) (hlast : mid ≤ last) {x : α}
    (hx : l[mid]? = some x) (htest : test x = false) : Boundary test l first last r where
  first_le := hr.first_le
  le_last := by have := hr.le_last; omega
  before := hr.before
  behind y _ hy := by
    obtain hlt | rfl := Nat.lt_or_eq_of_le hr.le_last
    · exact hr.behind y hlt hy
    · rw [eq_of_read hx hy]
      exact htest

end

/-- The bisection moves `first` behind an element that satisfies the test and the end onto
one that does not. -/
theorem partitionPointLoop_boundary (test : α → Bool) (l : List α) (fuel first d : Nat)
    (hd : 0 < d) (hfuel : d ≤ fuel) (hlast : first + d ≤ l.length) :
    ∃ r, partitionPointLoop test l fuel first d = .ok r ∧
      Boundary test l first (first + d) r := by
  induction fuel generalizing first d with
  | zero => omega
  | succ fuel ih =>
    obtain ⟨x, hx⟩ : ∃ x, l[first + d / 2]? = some x :=
      ⟨_, List.getElem?_eq_getElem (by omega)⟩
    rw [partitionPointLoop, deref_of_some hx, exec_bind_ok]
    cases htest : test x with
    | true =>
      have hend : first + d / 2 + 1 + (d - (d / 2 + 1)) = first + d := by omega
      simp only [if_true]
      split
      next hzero =>
        rw [hzero, Nat.add_zero] at hend
        rw [← hend]
        exact ⟨_, rfl, (boundary_empty test l _).extend_front (by omega) hx htest⟩
      next hzero =>
        obtain ⟨r, hrun, hr⟩ := ih (first + d / 2 + 1) (d - (d / 2 + 1)) (by omega) (by omega)
          (by omega)
        rw [hend] at hr
        exact ⟨r, hrun, hr.extend_front (by omega) hx htest⟩
    | false =>
      simp only [if_false, Bool.false_eq_true]
      split
      next hzero =>
        rw [hzero, Nat.add_zero] at hx
        exact ⟨_, rfl, (boundary_empty test l first).extend_back (by omega) hx htest⟩
      next hzero =>
        obtain ⟨r, hrun, hr⟩ := ih first (d / 2) (by omega) (by omega) (by omega)
        exact ⟨r, hrun, hr.extend_back (by omega) hx htest⟩

theorem partitionPointN_boundary (test : α → Bool) {l : List α} {first d : Nat}
    (hlast : first + d ≤ l.length) :
    ∃ r, partitionPointN test l first d = .ok r ∧ Boundary test l first (first + d) r := by
  rw [partitionPointN]
  split
  next hd => exact partitionPointLoop_boundary test l d first d hd (Nat.le_refl d) hlast
  next hd =>
    obtain rfl : d = 0 := by omega
    exact ⟨first, rfl, boundary_empty test l first⟩

/-- The probe moves onto elements that satisfy the test and leaves the stretch up to one
that does not, or to the end, to the bisection. -/
theorem partitionPointProbe_boundary (test : α → Bool) (l : List α) (fuel start first len : Nat)
    (hlen : 0 < len) (hstart : start ≤ first) (hle : first ≤ l.length)
    (hfuel : l.length < first + fuel)
    (hfirst : start < first → ∃ x, l[first]? = some x ∧ test x = true) :
    ∃ r, partitionPointProbe test l fuel first len = .ok r ∧
      Boundary test l start l.length r := by
  induction fuel generalizing first len with
  | zero => omega
  | succ fuel ih =>
    have hin : start < first → first < l.length := by
      intro h
      obtain ⟨x, hx, -⟩ := hfirst h
      exact (List.getElem?_eq_some_iff.mp hx).1
    have hbisect (mid : Nat) (hlow : first ≤ mid) (hmid : mid ≤ l.length)
        (hfar : start < first → first < mid) :
        ∃ r, partitionPointN test l first (mid - first) = .ok r ∧
          Boundary test l start mid r := by
      have hend : first + (mid - first) = mid := by omega
      have hroom : first + (mid - first) ≤ l.length := by omega
      obtain ⟨r, hrun, hr⟩ := partitionPointN_boundary test hroom
      rw [hend] at hr
      obtain hlt | rfl := Nat.lt_or_eq_of_le hstart
      · obtain ⟨x, hx, htest⟩ := hfirst hlt
        exact ⟨r, hrun, hr.extend_front_of_first hstart (hfar hlt) hx htest⟩
      · exact ⟨r, hrun, hr⟩
    have hcut : len - (len - (min (first + len) l.length - first)) =
        min (first + len) l.length - first := by omega
    rw [partitionPointProbe]
    split
    next hend =>
      rw [hcut, hend]
      exact hbisect _ hle (Nat.le_refl _) hin
    next hend =>
      have hmid : min (first + len) l.length < l.length := by omega
      have hx := List.getElem?_eq_getElem hmid
      rw [deref_eq hmid, exec_bind_ok]
      cases htest : test l[min (first + len) l.length] with
      | true =>
        rw [if_neg (by simp)]
        exact ih _ _ (by omega) (by omega) (by omega) (by omega) fun _ => ⟨_, hx, htest⟩
      | false =>
        rw [if_pos (by simp), hcut]
        obtain ⟨r, hrun, hr⟩ := hbisect _ (by omega) (Nat.le_of_lt hmid) (by omega)
        exact ⟨r, hrun, hr.extend_back (Nat.le_of_lt hmid) hx htest⟩

/-- On every range, partitioned or not, either way returns a boundary. -/
theorem partitionPoint_boundary (sized : Bool) (test : α → Bool) (l : List α) :
    ∃ r, partitionPoint sized test l = .ok r ∧ Boundary test l 0 l.length r := by
  rw [partitionPoint]
  split
  · have hroom : 0 + l.length ≤ l.length := by omega
    have hwhole := partitionPointN_boundary test hroom
    rwa [Nat.zero_add] at hwhole
  · exact partitionPointProbe_boundary test l (l.length + 1) 0 0 1 (by omega) (Nat.le_refl _)
      (Nat.zero_le _) (by omega) (fun hlt => absurd hlt (Nat.lt_irrefl _))

theorem partitionPoint_spec {test : α → Bool} {l : List α} {k : Nat} (sized : Bool)
    (h : PartitionedAt test l k) : partitionPoint sized test l = .ok k := by
  obtain ⟨r, hrun, hr⟩ := partitionPoint_boundary sized test l
  rw [hrun, hr.eq_of_partitionedAt h (Nat.zero_le _) h.1 (Nat.le_refl _)]

/-- A test that never turns true again cuts the list in two. -/
theorem exists_partition {test : α → Bool} {l : List α}
    (h : l.Pairwise fun a b => test b = true → test a = true) :
    ∃ p q, l = p ++ q ∧ (∀ x ∈ p, test x = true) ∧ (∀ x ∈ q, test x = false) := by
  induction l with
  | nil => exact ⟨[], [], rfl, by simp, by simp⟩
  | cons a l ih =>
    obtain ⟨ha, hl⟩ := List.pairwise_cons.mp h
    by_cases htest : test a = true
    · obtain ⟨p, q, rfl, hp, hq⟩ := ih hl
      refine ⟨a :: p, q, rfl, fun x hx => ?_, hq⟩
      obtain rfl | hx := List.mem_cons.mp hx
      · exact htest
      · exact hp x hx
    · refine ⟨[], a :: l, rfl, by simp, fun x hx => ?_⟩
      obtain rfl | hx := List.mem_cons.mp hx
      · simpa using htest
      · by_contra hx'
        exact htest (ha x hx (by simpa using hx'))

theorem partitionedAt_append {test : α → Bool} {p q : List α} (hp : ∀ x ∈ p, test x = true)
    (hq : ∀ x ∈ q, test x = false) : PartitionedAt test (p ++ q) p.length := by
  refine ⟨by simp, fun i x hx => ?_⟩
  by_cases hi : i < p.length
  · rw [List.getElem?_append_left hi] at hx
    exact ⟨fun _ => hi, fun _ => hp x (List.mem_of_getElem? hx)⟩
  · rw [List.getElem?_append_right (by omega)] at hx
    have := hq x (List.mem_of_getElem? hx)
    simp [hi, this]

/-- In a sorted range, `upper_bound` splits off the elements not greater than the value. -/
theorem upperBound_spec {pred : κ → κ → Bool} {proj : α → κ} (h : StrictWeakOrder pred)
    (sized : Bool) {l : List α} (hl : Sorted (projected pred proj) l) (v : α) :
    ∃ p q, l = p ++ q ∧ upperBound pred proj sized l (proj v) = .ok p.length ∧
      (∀ x ∈ p, projected pred proj v x = false) ∧ (∀ x ∈ q, projected pred proj v x = true) := by
  have hpart : l.Pairwise fun a b =>
      (!pred (proj v) (proj b)) = true → (!pred (proj v) (proj a)) = true := by
    refine hl.imp fun {a b} hab hb => ?_
    simp only [Bool.not_eq_true'] at hb ⊢
    exact (h.projected proj).not_lt_trans (a := a) (b := b) (c := v) hab hb
  obtain ⟨p, q, rfl, hp, hq⟩ := exists_partition hpart
  refine ⟨p, q, rfl, partitionPoint_spec sized (partitionedAt_append hp hq), ?_, ?_⟩
  · exact fun x hx => by simpa [projected] using hp x hx
  · exact fun x hx => by simpa [projected] using hq x hx

/-- In a sorted range, `lower_bound` splits off the elements less than the value. -/
theorem lowerBound_spec {pred : κ → κ → Bool} {proj : α → κ} (h : StrictWeakOrder pred)
    (sized : Bool) {l : List α} (hl : Sorted (projected pred proj) l) (v : α) :
    ∃ p q, l = p ++ q ∧ lowerBound pred proj sized l (proj v) = .ok p.length ∧
      (∀ x ∈ p, projected pred proj x v = true) ∧ (∀ x ∈ q, projected pred proj x v = false) := by
  have hpart : l.Pairwise fun a b =>
      pred (proj b) (proj v) = true → pred (proj a) (proj v) = true := by
    refine hl.imp fun {a b} hab hb => ?_
    exact (h.projected proj).lt_of_not_lt_of_lt (a := a) (b := b) (c := v) hab hb
  obtain ⟨p, q, rfl, hp, hq⟩ := exists_partition hpart
  exact ⟨p, q, rfl, partitionPoint_spec sized (partitionedAt_append hp hq), hp, hq⟩

end EARanges.Algorithm
