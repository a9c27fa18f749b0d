import EARanges.Algorithm.PartitionPoint
import EARanges.Iterator.Advance

/-!
# `equal_range` and `binary_search`

algorithm/equal_range.hpp, aux_/equal_range_n.hpp and binary_search.hpp. Once an element
equivalent to the value is found, the lower bound lies in front of it and the upper bound
behind it; the probe knows no end for the latter and probes for it anew.
-/
namespace EARanges.Algorithm
open EARanges.Support

variable {α κ : Type}

section
variable (pred : κ → κ → Bool) (proj : α → κ) (l : List α) (val : κ)

def lowerBoundN (first d : Nat) : Exec Nat :=
  partitionPointN (fun x => pred (proj x) val) l first d

def upperBoundN (first d : Nat) : Exec Nat :=
  partitionPointN (fun x => !pred val (proj x)) l first d

/-- The `do` loop of `equal_range_n`. -/
def equalRangeLoop : Nat → Nat → Nat → Exec (Nat × Nat)
  | 0, _, _ => .error .fuel
  | fuel + 1, first, dist => do
    let half := dist / 2
    let middle := first + half
    let v ← deref l middle
    if pred (proj v) val then
      let first := middle + 1
      let dist := dist - (half + 1)
      if dist = 0 then .ok (first, first) else equalRangeLoop fuel first dist
    else if pred val (proj v) then
      if half = 0 then .ok (first, first) else equalRangeLoop fuel first half
    else
      let lower ← lowerBoundN pred proj l val first half
      let upper ← upperBoundN pred proj l val (middle + 1) (dist - (half + 1))
      .ok (lower, upper)

def equalRangeN (first dist : Nat) : Exec (Nat × Nat) :=
  if 0 < dist then equalRangeLoop pred proj l val dist first dist else .ok (first, first)

/-- The `while(true)` loop of `equal_range`, which doubles `dist`. -/
def equalRangeProbe : Nat → Nat → Nat → Exec (Nat × Nat)
  | 0, _, _ => .error .fuel
  | fuel + 1, first, dist => do
    -- `advance(mid, dist, last)`, as in `partitionPointProbe`
    let mid := min (first + dist) l.length
    let d := dist - (mid - first)
    if d ≠ 0 ∨ mid = l.length then equalRangeN pred proj l val first (dist - d)
    else
      let v ← deref l mid
      if pred val (proj v) then equalRangeN pred proj l val first dist
      else if !pred (proj v) val then
        let lower ← lowerBoundN pred proj l val first dist
        let upper ← partitionPointProbe (fun x => !pred val (proj x)) l (l.length + 1) mid 1
        .ok (lower, upper)
      else
        let first ← incr l mid
        equalRangeProbe fuel first (dist * 2)

def equalRange (sized : Bool) : Exec (Nat × Nat) :=
  if sized then equalRangeN pred proj l val 0 l.length
  else equalRangeProbe pred proj l val (l.length + 1) 0 1

def binarySearch (sized : Bool) : Exec Bool := do
  let first ← lowerBound pred proj sized l val
  if first ≠ l.length then
    let x ← deref l first
    .ok (!pred val (proj x))
  else .ok false

/-- The range is sorted with respect to the value: what is less than it comes first, then
up to `upper` what is equivalent to it. -/
structure SortedAround (lower upper : Nat) : Prop where
  lower_at : PartitionedAt (fun x => pred (proj x) val) l lower
  upper_at : PartitionedAt (fun x => !pred val (proj x)) l upper
  ordered : lower ≤ upper

/-- Boundaries on both sides, between `first` and `last`. -/
structure EqualBounds (first last : Nat) (r : Nat × Nat) : Prop where
  lower : Boundary (fun x => pred (proj x) val) l first last r.1
  upper : Boundary (fun x => !pred val (proj x)) l first last r.2
  ordered : r.1 ≤ r.2

end

variable {pred : κ → κ → Bool} {proj : α → κ} {l : List α} {val : κ}

/-! ## Narrowing the range down -/

section
variable {first last mid : Nat} {r : Nat × Nat} {x : α}

theorem equalBounds_empty (first : Nat) : EqualBounds pred proj l val first first (first, first) :=
  ⟨boundary_empty _ l first, boundary_empty _ l first, Nat.le_refl _⟩

theorem EqualBounds.eq_of_sortedAround {lower upper : Nat}
    (hr : EqualBounds pred proj l val first last r)
    (h : SortedAround pred proj l val lower upper) (hfirst : first ≤ lower) (hlast : upper ≤ last)
    (hle : last ≤ l.length) : r = (lower, upper) := by
  have hord := h.ordered
  have hlow : r.1 = lower := hr.lower.eq_of_partitionedAt h.lower_at hfirst (by omega) hle
  have hup : r.2 = upper := hr.upper.eq_of_partitionedAt h.upper_at (by omega) hlast hle
  rw [← hlow, ← hup]

variable (hless : pred (proj x) val = true → pred val (proj x) = false)
include hless

/-- In front lies an element less than the value. -/
theorem EqualBounds.extend_front (hr : EqualBounds pred proj l val (mid + 1) last r)
    (hfirst : first ≤ mid) (hx : l[mid]? = some x) (h : pred (proj x) val = true) :
    EqualBounds pred proj l val first last r where
  lower := hr.lower.extend_front hfirst hx h
  upper := hr.upper.extend_front hfirst hx (by rw [hless h]; rfl)
  ordered := hr.ordered

/-- Behind lies an element greater than the value. -/
theorem EqualBounds.extend_back (hr : EqualBounds pred proj l val first mid r)
    (hlast : mid ≤ last) (hx : l[mid]? = some x) (h : pred val (proj x) = true) :
    EqualBounds pred proj l val first last r where
  lower := hr.lower.extend_back hlast hx (by
    cases hlt : pred (proj x) val with
    | false => rfl
    | true =>
      rw [hless hlt] at h
      cases h)
  upper := hr.upper.extend_back hlast hx (by rw [h]; rfl)
  ordered := hr.ordered

end

/-- The two bounds around an element equivalent to the value. -/
theorem equalBounds_around {first last mid a b : Nat} {x : α} (hx : l[mid]? = some x)
    (hfirst : first ≤ mid) (hlast : mid < last) (hlt : pred (proj x) val = false)
    (hgt : pred val (proj x) = false)
    (ha : Boundary (fun x => pred (proj x) val) l first mid a)
    (hb : Boundary (fun x => !pred val (proj x)) l (mid + 1) last b) :
    EqualBounds pred proj l val first last (a, b) where
  lower := ha.extend_back (Nat.le_of_lt hlast) hx hlt
  upper := hb.extend_front hfirst hx (by rw [hgt]; rfl)
  ordered := by
    have := ha.le_last
    have := hb.first_le
    dsimp only
    omega

section
variable (hasym : ∀ x ∈ l, pred (proj x) val = true → pred val (proj x) = false)
include hasym

theorem equalRangeLoop_bounds (fuel first dist : Nat) (hdist : 0 < dist) (hfuel : dist ≤ fuel)
    (hlast : first + dist ≤ l.length) :
    ∃ r, equalRangeLoop pred proj l val fuel first dist = .ok r ∧
      EqualBounds pred proj l val first (first + dist) r := by
  induction fuel generalizing first dist with
  | zero => omega
  | succ fuel ih =>
    have hend : first + dist / 2 + 1 + (dist - (dist / 2 + 1)) = first + dist := by omega
    obtain ⟨v, hv⟩ : ∃ v, l[first + dist / 2]? = some v :=
      ⟨_, List.getElem?_eq_getElem (by omega)⟩
    have hless := hasym v (List.mem_of_getElem? hv)
    rw [equalRangeLoop, deref_of_some hv, exec_bind_ok]
    dsimp only
    cases hlt : pred (proj v) val with
    | true =>
      rw [if_pos rfl]
      split
      next hzero =>
        rw [hzero, Nat.add_zero] at hend
        rw [← hend]
        exact ⟨_, rfl, (equalBounds_empty _).extend_front hless (by omega) hv hlt⟩
      next hzero =>
        obtain ⟨r, hrun, hr⟩ := ih (first + dist / 2 + 1) (dist - (dist / 2 + 1)) (by omega)
          (by omega) (by omega)
        rw [hend] at hr
        exact ⟨r, hrun, hr.extend_front hless (by omega) hv hlt⟩
    | false =>
      rw [if_neg Bool.false_ne_true]
      cases hgt : pred val (proj v) with
      | true =>
        rw [if_pos rfl]
        split
        next hzero =>
          rw [hzero, Nat.add_zero] at hv
          exact ⟨_, rfl, (equalBounds_empty first).extend_back hless (by omega) hv hgt⟩
        next hzero =>
          obtain ⟨r, hrun, hr⟩ := ih first (dist / 2) (by omega) (by omega) (by omega)
          exact ⟨r, hrun, hr.extend_back hless (by omega) hv hgt⟩
      | false =>
        have hfront : first + dist / 2 ≤ l.length := by omega
        have hback : first + dist / 2 + 1 + (dist - (dist / 2 + 1)) ≤ l.length := by omega
        obtain ⟨a, hlower, ha⟩ := partitionPointN_boundary (fun x => pred (proj x) val) hfront
        obtain ⟨b, hupper, hb⟩ := partitionPointN_boundary (fun x => !pred val (proj x)) hback
        rw [if_neg Bool.false_ne_true, lowerBoundN, hlower, exec_bind_ok, upperBoundN, hupper,
          exec_bind_ok]
        rw [hend] at hb
        exact ⟨_, rfl, equalBounds_around hv (by omega) (by omega) hlt hgt ha hb⟩

theorem equalRangeN_bounds {first dist : Nat} (hlast : first + dist ≤ l.length) :
    ∃ r, equalRangeN pred proj l val first dist = .ok r ∧
      EqualBounds pred proj l val first (first + dist) r := by
  rw [equalRangeN]
  split
  next hdist => exact equalRangeLoop_bounds hasym dist first dist hdist (Nat.le_refl _) hlast
  next hdist =>
    obtain rfl : dist = 0 := by omega
    exact ⟨_, rfl, equalBounds_empty first⟩

/-- In front of `first` lies nothing or an element less than the value; each exit hands the
stretch up to `mid` on. -/
theorem equalRangeProbe_bounds (fuel start first dist : Nat) (hdist : 0 < dist)
    (hstart : start ≤ first) (hle : first ≤ l.length) (hfuel : l.length < first + fuel)
    (hfront : ∀ r, EqualBounds pred proj l val first l.length r →
      EqualBounds pred proj l val start l.length r) :
    ∃ r, equalRangeProbe pred proj l val fuel first dist = .ok r ∧
      EqualBounds pred proj l val start l.length r := by
  induction fuel generalizing first dist with
  | zero => omega
  | succ fuel ih =>
    rw [equalRangeProbe]
    split
    next hend =>
      have hcut : dist - (dist - (min (first + dist) l.length - first)) = l.length - first := by
        omega
      have hroom : first + (l.length - first) ≤ l.length := by omega
      obtain ⟨r, hrun, hr⟩ := equalRangeN_bounds hasym hroom
      rw [Nat.add_sub_cancel' hle] at hr
      rw [hcut]
      exact ⟨r, hrun, hfront r hr⟩
    next hend =>
      have hmid : min (first + dist) l.length = first + dist := by omega
      have hin : first + dist < l.length := by omega
      obtain ⟨v, hv⟩ : ∃ v, l[first + dist]? = some v := ⟨_, List.getElem?_eq_getElem hin⟩
      have hless := hasym v (List.mem_of_getElem? hv)
      rw [hmid, deref_of_some hv, exec_bind_ok]
      cases hgt : pred val (proj v) with
      | true =>
        rw [if_pos rfl]
        obtain ⟨r, hrun, hr⟩ := equalRangeN_bounds hasym (Nat.le_of_lt hin)
        exact ⟨r, hrun, hfront r (hr.extend_back hless (Nat.le_of_lt hin) hv hgt)⟩
      | false =>
        rw [if_neg Bool.false_ne_true]
        cases hlt : pred (proj v) val with
        | false =>
          -- `upper_bound` starts over at `mid`, which is not greater than the value
          obtain ⟨a, hlower, ha⟩ := partitionPointN_boundary (fun x => pred (proj x) val)
            (Nat.le_of_lt hin)
          obtain ⟨b, hupper, hb⟩ := partitionPointProbe_boundary
            (fun x => !pred val (proj x)) l (l.length + 1) (first + dist) (first + dist) 1
            (by omega) (Nat.le_refl _) (by omega) (by omega)
            (fun h => absurd h (Nat.lt_irrefl _))
          rw [if_pos (by rfl), lowerBoundN, hlower, exec_bind_ok, hupper, exec_bind_ok]
          refine ⟨_, rfl, hfront _ ⟨ha.extend_back (Nat.le_of_lt hin) hv hlt, ?_, ?_⟩⟩
          · exact hb.extend_front_of_first (by omega) hin hv (by rw [hgt]; rfl)
          · have := ha.le_last
            have := hb.first_le
            dsimp only
            omega
        | true =>
          rw [if_neg (by simp), incr_ok hin, exec_bind_ok]
          refine ih _ _ (by omega) (by omega) hin (by omega) fun r hr => hfront r ?_
          exact hr.extend_front hless (by omega) hv hlt

/-- On every range, sorted or not, either way returns boundaries. -/
theorem equalRange_bounds (sized : Bool) :
    ∃ r, equalRange pred proj l val sized = .ok r ∧ EqualBounds pred proj l val 0 l.length r := by
  rw [equalRange]
  split
  · have hroom : 0 + l.length ≤ l.length := by omega
    have hwhole := equalRangeN_bounds hasym hroom
    rwa [Nat.zero_add] at hwhole
  · exact equalRangeProbe_bounds hasym (l.length + 1) 0 0 1 (by omega) (Nat.le_refl _)
      (Nat.zero_le _) (by omega) fun r hr => hr

end

/-! ## Sorted ranges -/

/-- In a range in order what is less than the value comes first, and what is greater last. -/
theorem exists_sortedAround (h : StrictWeakOrder pred) (hl : Sorted (projected pred proj) l)
    (val : κ) : ∃ lower upper, SortedAround pred proj l val lower upper := by
  have hlower : l.Pairwise fun a b => pred (proj b) val = true → pred (proj a) val = true :=
    hl.imp fun hab hb => h.lt_of_not_lt_of_lt hab hb
  have hupper : l.Pairwise fun a b =>
      (!pred val (proj b)) = true → (!pred val (proj a)) = true := by
    refine hl.imp fun hab hb => ?_
    simp only [Bool.not_eq_true'] at hb ⊢
    exact h.not_lt_trans hab hb
  obtain ⟨p, q, hpq, hp, hq⟩ := exists_partition hlower
  obtain ⟨p', q', hpq', hp', hq'⟩ := exists_partition hupper
  have hlow : PartitionedAt (fun x => pred (proj x) val) l p.length := by
    rw [hpq]
    exact partitionedAt_append hp hq
  have hup : PartitionedAt (fun x => !pred val (proj x)) l p'.length := by
    rw [hpq']
    exact partitionedAt_append hp' hq'
  refine ⟨p.length, p'.length, hlow, hup, ?_⟩
  by_contra hgt
  -- the element behind the upper bound would be less than the value and greater
  obtain ⟨x, hx⟩ : ∃ x, l[p'.length]? = some x :=
    ⟨_, List.getElem?_eq_getElem (by have := hlow.1; omega)⟩
  have hlt : pred (proj x) val = true := (hlow.2 _ x hx).mpr (by omega)
  have hin : p'.length < p'.length := (hup.2 _ x hx).mp (by simp [h.asymm hlt])
  exact Nat.lt_irrefl _ hin

/-- An element in front of the lower bound lies in front of the upper bound. -/
theorem SortedAround.not_greater {lower upper : Nat}
    (h : SortedAround pred proj l val lower upper) :
    ∀ x ∈ l, pred (proj x) val = true → pred val (proj x) = false := by
  intro x hmem hlt
  obtain ⟨i, hx⟩ := List.getElem?_of_mem hmem
  have hi : i < lower := (h.lower_at.2 i x hx).mp hlt
  have hord := h.ordered
  simpa using (h.upper_at.2 i x hx).mpr (by omega)

theorem binarySearch_spec {lower upper : Nat} (h : SortedAround pred proj l val lower upper)
    (sized : Bool) : binarySearch pred proj l val sized = .ok (decide (lower < upper)) := by
  have hlower : lowerBound pred proj sized l val = .ok lower := partitionPoint_spec sized h.lower_at
  have hle := h.upper_at.1
  have hord := h.ordered
  rw [binarySearch, hlower, exec_bind_ok]
  split
  next hend =>
    obtain ⟨x, hx⟩ : ∃ x, l[lower]? = some x := ⟨_, List.getElem?_eq_getElem (by omega)⟩
    have hiff : (!pred val (proj x)) = true ↔ lower < upper := h.upper_at.2 lower x hx
    rw [deref_of_some hx, exec_bind_ok]
    by_cases hin : lower < upper
    · rw [hiff.mpr hin, decide_eq_true hin]
    · rw [decide_eq_false hin, Bool.eq_false_iff.mpr fun htrue => hin (hiff.mp htrue)]
  next hend =>
    rw [decide_eq_false (by omega)]

theorem equalRange_spec {lower upper : Nat} (h : SortedAround pred proj l val lower upper)
    (sized : Bool) : equalRange pred proj l val sized = .ok (lower, upper) := by
  obtain ⟨r, hrun, hr⟩ := equalRange_bounds h.not_greater sized
  rw [hrun, hr.eq_of_sortedAround h (Nat.zero_le _) h.upper_at.1 (Nat.le_refl _)]

/-! ## The probes' `advance` -/

/-- `advance(mid, len, last)` from `first` ends where the probes have it, leaves of `len`
what they say, and stays inside the range. -/
def AdvancesAsProbed (length first len : Nat) (run : Exec (Iterator.Walker × Int)) : Prop :=
  ∃ w, run = .ok (w, ((len - (min (first + len) length - first) : Nat) : Int)) ∧
    w.pos = (min (first + len) length : Nat) ∧ ∀ p ∈ w.trace, (first : Int) ≤ p ∧ p ≤ length

theorem advancesAsProbed_of_law {length first len : Nat} (hfirst : first ≤ length)
    {run : Exec (Iterator.Walker × Int)} (h : Iterator.BoundedLaw run first len length) :
    AdvancesAsProbed length first len run := by
  obtain ⟨w, hrun, hpos, htrace⟩ := h
  have hnear : Iterator.nearer first len length = (min (first + len) length : Nat) := by
    unfold Iterator.nearer
    split <;> omega
  rw [hnear] at hrun hpos
  refine ⟨w, ?_, hpos, fun p hp => ?_⟩
  · rw [hrun]
    congr 2
    omega
  · have hbetween := htrace p hp
    unfold Iterator.Between at hbetween
    omega

theorem advance_asProbed (t : Iterator.IterTraits) {length first : Nat} (hfirst : first ≤ length)
    (len : Nat) :
    AdvancesAsProbed length first len (Iterator.advance t length ⟨first, []⟩ len length) ∧
      AdvancesAsProbed length first len (Iterator.bounded t length ⟨first, []⟩ len length) := by
  have hreach : Iterator.Reaches length first len length := by
    constructor <;> omega
  refine ⟨advancesAsProbed_of_law hfirst ?_,
    advancesAsProbed_of_law hfirst (Iterator.bounded_law t hreach)⟩
  cases ht : t.sizedSentinel with
  | true => exact Iterator.advance_sized_law t ht hreach
  | false =>
    have hforward : Iterator.advance t length ⟨first, []⟩ len length =
        Iterator.whileForward length length (len : Int).toNat ⟨first, []⟩ := by
      rw [Iterator.advance, ht, if_neg Bool.false_ne_true, if_neg (by omega)]
    rw [hforward]
    exact Iterator.whileForward_law hreach (by omega)

/-! ## The searches -/

/-- A range that is not partitioned can have several boundaries. -/
example : partitionPoint true (fun x : Nat => decide (x = 1)) [1, 0, 1, 0] = .ok 3 ∧
    partitionPoint false (fun x : Nat => decide (x = 1)) [1, 0, 1, 0] = .ok 1 := by decide

end EARanges.Algorithm
