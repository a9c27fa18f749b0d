import EARanges.Algorithm.Heap
import EARanges.Algorithm.InsertionSort
import Mathlib.Order.Nat

/-!
# `sort`

algorithm/sort.hpp. `introsort_loop` partitions around a median of three until at most 16
elements are left or the depth limit is reached, and then sorts the part as a heap.
`final_insertion_sort` sorts the first 16 elements and inserts the others without looking
for the begin of the range: that is safe because one of the first 16 is least.
The scans of `unguarded_partition` fault when they leave the range.
-/
namespace EARanges.Algorithm
open EARanges.Support

variable {α κ : Type}

section
variable (pred : κ → κ → Bool) (proj : α → κ)

/-- `pivot_pnt`, at the median of the first, the middle and the last element. -/
def medianPnt (l : List α) : Exec Nat := do
  let first := 0
  let mid := l.length / 2
  let penultimate := l.length - 1
  let x ← deref l first
  let y ← deref l mid
  let z ← deref l penultimate
  let a := proj x
  let b := proj y
  let c := proj z
  .ok (if pred a b then
      (if pred b c then mid else if pred a c then penultimate else first)
    else (if pred a c then first else if pred b c then penultimate else mid))

/-- `while(pred(*first, pivot)) ++first`. -/
def scanUp (l : List α) (pivot : κ) : Nat → Nat → Exec Nat
  | 0, _ => .error .fuel
  | fuel + 1, first => do
    let x ← deref l first
    if pred (proj x) pivot then scanUp l pivot fuel (first + 1) else .ok first

/-- `--last; while(pred(pivot, *last)) --last`. -/
def scanDown (l : List α) (pivot : κ) : Nat → Exec Nat
  | 0 => .error .fault
  | last + 1 => do
    let x ← deref l last
    if pred pivot (proj x) then scanDown l pivot last else .ok last

/-- The outer loop of `unguarded_partition`. -/
def partitionLoop : Nat → List α → Nat → Nat → Nat → Exec (List α × Nat)
  | 0, _, _, _, _ => .error .fuel
  | fuel + 1, l, pivotPnt, first, last => do
    let v ← deref l pivotPnt
    let pivot := proj v
    let first ← scanUp pred proj l pivot (l.length + 1) first
    let last ← scanDown pred proj l pivot last
    if ¬ first < last then .ok (l, first)
    else do
      let l ← iterSwap l first last
      let pivotPnt :=
        if pivotPnt = first then last else if pivotPnt = last then first else pivotPnt
      partitionLoop fuel l pivotPnt (first + 1) last

def unguardedPartition (l : List α) : Exec (List α × Nat) := do
  let pivotPnt ← medianPnt pred proj l
  partitionLoop pred proj (l.length + 1) l pivotPnt 0 l.length

def introsortThreshold : Nat := 16

def finalInsertionSort (l : List α) : Exec (List α) :=
  if introsortThreshold < l.length then do
    let l ← onRange l 0 introsortThreshold (insertionSort pred proj)
    unguardedInsertionSort pred proj l introsortThreshold l.length
  else insertionSort pred proj l

/-- `for(; n != 1; n >>= 1) ++k`. -/
def log2Loop (k : Nat) : Nat → Nat → Exec Nat
  | 0, _ => .error .fuel
  | fuel + 1, n => if n ≠ 1 then log2Loop (k + 1) fuel (n / 2) else .ok k

def log2 (n : Nat) : Exec Nat := log2Loop 0 (n + 1) n

/-- One turn of the loop on `[first, last)`; the next one is on `[first, cut)`, with the
limit that the recursive call has been given. -/
def introsortLoop : Nat → List α → Exec (List α)
  | depthLimit, l =>
    if introsortThreshold < l.length then
      match depthLimit with
      | 0 => do
        let (l, _) ← partialSort pred proj l l.length
        .ok l
      | depthLimit + 1 => do
        let (l, cut) ← unguardedPartition pred proj l
        let l ← onRange l cut l.length (introsortLoop depthLimit)
        onRange l 0 cut (introsortLoop depthLimit)
    else .ok l

/-- `sort`, which also returns `last`. -/
def sort (l : List α) : Exec (List α × Nat) :=
  if 0 ≠ l.length then do
    let k ← log2 l.length
    let r ← introsortLoop pred proj (k * 2) l
    let r ← finalInsertionSort pred proj r
    .ok (r, l.length)
  else .ok (l, l.length)

end

variable {pred : κ → κ → Bool} {proj : α → κ}

/-! ## The partition -/

theorem scanUp_spec {l : List α} {pivot : κ} (fuel : Nat) {first i : Nat} {x : α}
    (hle : first ≤ i) (hx : l[i]? = some x) (hstop : pred (proj x) pivot = false)
    (hfuel : i < fuel + first) :
    ∃ j y, scanUp pred proj l pivot fuel first = .ok j ∧ first ≤ j ∧ j ≤ i ∧
      l[j]? = some y ∧ pred (proj y) pivot = false ∧
      ∀ k z, first ≤ k → k < j → l[k]? = some z → pred (proj z) pivot = true := by
  induction fuel generalizing first with
  | zero => omega
  | succ fuel ih =>
    have hi := (List.getElem?_eq_some_iff.mp hx).1
    have hfirst : first < l.length := by omega
    have hget := List.getElem?_eq_getElem hfirst
    rw [scanUp, deref_eq hfirst, exec_bind_ok]
    cases hlt : pred (proj l[first]) pivot with
    | false =>
      rw [if_neg (by simp)]
      exact ⟨first, _, rfl, Nat.le_refl _, hle, hget, hlt, fun k z hk hk' => by omega⟩
    | true =>
      have hne : first ≠ i := by
        rintro rfl
        rw [hget, Option.some.injEq] at hx
        rw [hx, hstop] at hlt
        cases hlt
      obtain ⟨j, y, hrun, hj, hji, hy, hystop, hbelow⟩ := ih (show first + 1 ≤ i by omega)
        (by omega)
      rw [if_pos rfl]
      refine ⟨j, y, hrun, by omega, hji, hy, hystop, fun k z hk hkj hz => ?_⟩
      by_cases hkf : k = first
      · subst hkf
        rw [hget, Option.some.injEq] at hz
        rw [← hz]
        exact hlt
      · exact hbelow k z (by omega) hkj hz

theorem scanDown_spec {l : List α} {pivot : κ} {last i : Nat} {x : α} (hlt : i < last)
    (hlast : last ≤ l.length) (hx : l[i]? = some x) (hstop : pred pivot (proj x) = false) :
    ∃ j y, scanDown pred proj l pivot last = .ok j ∧ i ≤ j ∧ j < last ∧
      l[j]? = some y ∧ pred pivot (proj y) = false ∧
      ∀ k z, j < k → k < last → l[k]? = some z → pred pivot (proj z) = true := by
  induction last with
  | zero => omega
  | succ last ih =>
    have hget := List.getElem?_eq_getElem (show last < l.length by omega)
    rw [scanDown, deref_eq (show last < l.length by omega), exec_bind_ok]
    cases hgt : pred pivot (proj l[last]) with
    | false =>
      rw [if_neg (by simp)]
      exact ⟨last, _, rfl, by omega, by omega, hget, hgt, fun k z hk hk' => by omega⟩
    | true =>
      have hne : i ≠ last := by
        rintro rfl
        rw [hget, Option.some.injEq] at hx
        rw [hx, hstop] at hgt
        cases hgt
      obtain ⟨j, y, hrun, hj, hjl, hy, hystop, habove⟩ := ih (by omega) (by omega)
      rw [if_pos rfl]
      refine ⟨j, y, hrun, hj, by omega, hy, hystop, fun k z hk hkl hz => ?_⟩
      by_cases hkl' : k = last
      · subst hkl'
        rw [hget, Option.some.injEq] at hz
        rw [← hz]
        exact hgt
      · exact habove k z hk (by omega) hz

/-- At the head of the loop: what is outside `[first, last)` is on its side of the pivot
value `v`, and each scan has an element to stop at; the one from the back does not get to
the begin of the range. -/
structure PartitionInv (lt : α → α → Bool) (l : List α) (v : α) (pivotPnt first last : Nat) :
    Prop where
  le : first ≤ last
  inside : last ≤ l.length
  pivot : l[pivotPnt]? = some v
  left : ∀ i x, i < first → l[i]? = some x → lt v x = false
  right : ∀ i x, last ≤ i → l[i]? = some x → lt x v = false
  upStop : ∃ i x, first ≤ i ∧ l[i]? = some x ∧ lt x v = false
  downStop : ∃ i x, i < last ∧ l[i]? = some x ∧ lt v x = false ∧ (0 < i ∨ 0 < first)

/-- The swapped elements stop the next scans. -/
theorem PartitionInv.swap {lt : α → α → Bool} (h : StrictWeakOrder lt) {l : List α} {v : α}
    {pivotPnt first last i j : Nat} {x y : α} (hinv : PartitionInv lt l v pivotPnt first last)
    (hij : i < j) (hj : j < last) (hx : l[i]? = some x) (hy : l[j]? = some y)
    (hxv : lt x v = false) (hvy : lt v y = false)
    (hbelow : ∀ k z, first ≤ k → k < i → l[k]? = some z → lt z v = true)
    (habove : ∀ k z, j < k → k < last → l[k]? = some z → lt v z = true) :
    PartitionInv lt ((l.set i y).set j x) v
      (if pivotPnt = i then j else if pivotPnt = j then i else pivotPnt) (i + 1) j := by
  have hlen := hinv.inside
  have hjlen : j < l.length := by omega
  have hat_j := getElem?_swap_right (i := i) hjlen x y
  have hat_i := getElem?_swap_left hij hjlen x y
  refine ⟨hij, ?_, ?_, fun k z hk hz => ?_, fun k z hk hz => ?_, ?_, ?_⟩
  · rw [List.length_set, List.length_set]
    omega
  · have hpivot := hinv.pivot
    split
    next heq => rw [hat_j, ← hx, ← heq, hpivot]
    next hne =>
      split
      next heq => rw [hat_i, ← hy, ← heq, hpivot]
      next hne' => rw [getElem?_swap_ne hne hne', hpivot]
  · by_cases hki : k = i
    · subst hki
      rw [hat_i, Option.some.injEq] at hz
      rw [← hz]
      exact hvy
    · rw [getElem?_swap_ne hki (by omega)] at hz
      by_cases hkf : k < first
      · exact hinv.left k z hkf hz
      · exact h.asymm (hbelow k z (by omega) (by omega) hz)
  · by_cases hkj : k = j
    · subst hkj
      rw [hat_j, Option.some.injEq] at hz
      rw [← hz]
      exact hxv
    · rw [getElem?_swap_ne (by omega) hkj] at hz
      by_cases hkl : last ≤ k
      · exact hinv.right k z hkl hz
      · exact h.asymm (habove k z (by omega) (by omega) hz)
  · exact ⟨j, x, hij, hat_j, hxv⟩
  · exact ⟨i, y, hij, hat_i, hvy, .inr (Nat.succ_pos i)⟩

theorem partitionLoop_spec (h : StrictWeakOrder pred) (fuel : Nat) {l : List α} {v : α}
    {pivotPnt first last : Nat}
    (hinv : PartitionInv (projected pred proj) l v pivotPnt first last)
    (hfuel : last < fuel + first) :
    ∃ r cut, partitionLoop pred proj fuel l pivotPnt first last = .ok (r, cut) ∧ l.Perm r ∧
      0 < cut ∧ cut < r.length ∧
      (∀ i x, i < cut → r[i]? = some x → projected pred proj v x = false) ∧
      ∀ i x, cut ≤ i → r[i]? = some x → projected pred proj x v = false := by
  have hproj := h.projected proj
  induction fuel generalizing l pivotPnt first last with
  | zero =>
    have := hinv.le
    omega
  | succ fuel ih =>
    obtain ⟨iu, xu, hle, hxu, hupstop⟩ := hinv.upStop
    obtain ⟨id, xd, hlt, hxd, hdownstop, hpos⟩ := hinv.downStop
    have hiu := (List.getElem?_eq_some_iff.mp hxu).1
    obtain ⟨i, x, hup, hfi, _, hx, hxv, hbelow⟩ := scanUp_spec (l.length + 1) hle hxu hupstop
      (by omega)
    obtain ⟨j, y, hdown, hdj, hjl, hy, hvy, habove⟩ := scanDown_spec hlt hinv.inside hxd hdownstop
    have hread : deref l pivotPnt = .ok v := by rw [deref, hinv.pivot]
    rw [partitionLoop, hread, exec_bind_ok]
    dsimp only
    rw [hup, exec_bind_ok, hdown, exec_bind_ok]
    by_cases hij : i < j
    · have hnext := hinv.swap hproj hij hjl hx hy hxv hvy hbelow habove
      obtain ⟨r, cut, hrun, hperm, hcut⟩ := ih hnext (by omega)
      rw [if_neg (by omega), iterSwap_eq hx hy, exec_bind_ok]
      exact ⟨r, cut, hrun, (perm_swap hx hy).trans hperm, hcut⟩
    · rw [if_pos hij]
      have hil := (List.getElem?_eq_some_iff.mp hx).1
      refine ⟨l, i, rfl, .refl l, by omega, hil, fun k z hk hz => ?_, fun k z hk hz => ?_⟩
      · by_cases hkf : k < first
        · exact hinv.left k z hkf hz
        · exact hproj.asymm (hbelow k z (by omega) hk hz)
      · by_cases hki : k = i
        · subst hki
          rw [hx, Option.some.injEq] at hz
          rw [← hz]
          exact hxv
        · by_cases hkl : last ≤ k
          · exact hinv.right k z hkl hz
          · exact hproj.asymm (habove k z (by omega) (by omega) hz)

/-- The median is not the only least element, if it is the first one. -/
theorem medianPnt_spec (h : StrictWeakOrder pred) (proj : α → κ) {l : List α}
    (hlen : 2 ≤ l.length) :
    ∃ p v, medianPnt pred proj l = .ok p ∧ l[p]? = some v ∧
      ∃ i x, 0 < i ∧ i < l.length ∧ l[i]? = some x ∧ projected pred proj v x = false := by
  have hproj := h.projected proj
  have hfirst : 0 < l.length := by omega
  have hmid : l.length / 2 < l.length := by omega
  have hpen : l.length - 1 < l.length := by omega
  have hx := List.getElem?_eq_getElem hfirst
  have hy := List.getElem?_eq_getElem hmid
  have hz := List.getElem?_eq_getElem hpen
  rw [medianPnt]
  dsimp only
  rw [deref_eq hfirst, exec_bind_ok, deref_eq hmid, exec_bind_ok, deref_eq hpen, exec_bind_ok]
  have hself (i : Nat) (hi : i < l.length) (hpos : 0 < i) : ∃ j x, 0 < j ∧ j < l.length ∧
      l[j]? = some x ∧ projected pred proj l[i] x = false :=
    ⟨i, l[i], hpos, hi, List.getElem?_eq_getElem hi, hproj.not_self _⟩
  cases hab : pred (proj l[0]) (proj l[l.length / 2]) with
  | true =>
    rw [if_pos rfl]
    cases hbc : pred (proj l[l.length / 2]) (proj l[l.length - 1]) with
    | true => exact ⟨l.length / 2, _, rfl, hy, hself _ hmid (by omega)⟩
    | false =>
      rw [if_neg (by simp)]
      cases hac : pred (proj l[0]) (proj l[l.length - 1]) with
      | true => exact ⟨l.length - 1, _, rfl, hz, hself _ hpen (by omega)⟩
      | false => exact ⟨0, _, rfl, hx, l.length - 1, _, by omega, hpen, hz, hac⟩
  | false =>
    rw [if_neg (by simp)]
    cases hac : pred (proj l[0]) (proj l[l.length - 1]) with
    | true => exact ⟨0, _, rfl, hx, l.length / 2, _, by omega, hmid, hy, hab⟩
    | false =>
      rw [if_neg (by simp)]
      cases hbc : pred (proj l[l.length / 2]) (proj l[l.length - 1]) with
      | true => exact ⟨l.length - 1, _, rfl, hz, hself _ hpen (by omega)⟩
      | false => exact ⟨l.length / 2, _, rfl, hy, hself _ hmid (by omega)⟩

/-- The cut leaves elements on both sides, those in front not greater and the others not
less than the pivot. -/
theorem unguardedPartition_spec (h : StrictWeakOrder pred) (proj : α → κ) {l : List α}
    (hlen : 2 ≤ l.length) :
    ∃ p v a b, medianPnt pred proj l = .ok p ∧ l[p]? = some v ∧
      unguardedPartition pred proj l = .ok (a ++ b, a.length) ∧ l.Perm (a ++ b) ∧
      a ≠ [] ∧ b ≠ [] ∧ (∀ x ∈ a, projected pred proj v x = false) ∧
      ∀ x ∈ b, projected pred proj x v = false := by
  have hproj := h.projected proj
  obtain ⟨p, v, hmedian, hv, i, x, hpos, hi, hx, hvx⟩ := medianPnt_spec h proj hlen
  have hp := (List.getElem?_eq_some_iff.mp hv).1
  have hinv : PartitionInv (projected pred proj) l v p 0 l.length := by
    refine ⟨Nat.zero_le _, Nat.le_refl _, hv, fun k z hk => by omega, fun k z hk hz => ?_, ?_, ?_⟩
    · have := (List.getElem?_eq_some_iff.mp hz).1
      omega
    · exact ⟨p, v, Nat.zero_le _, hv, hproj.not_self v⟩
    · exact ⟨i, x, hi, hx, hvx, .inl hpos⟩
  obtain ⟨r, cut, hrun, hperm, hcut, hcut', hleft, hright⟩ := partitionLoop_spec h (l.length + 1)
    hinv (by omega)
  have htake : (r.take cut).length = cut := by
    rw [List.length_take]
    omega
  refine ⟨p, v, r.take cut, r.drop cut, hmedian, hv, ?_, ?_, ?_, ?_, fun z hz => ?_,
    fun z hz => ?_⟩
  · rw [unguardedPartition, hmedian, exec_bind_ok, hrun, List.take_append_drop, htake]
  · rwa [List.take_append_drop]
  · exact List.ne_nil_of_length_pos (by omega)
  · apply List.ne_nil_of_length_pos
    rw [List.length_drop]
    omega
  · obtain ⟨k, hk⟩ := List.mem_iff_getElem?.mp hz
    have hklt := (List.getElem?_eq_some_iff.mp hk).1
    rw [htake] at hklt
    rw [List.getElem?_take_of_lt hklt] at hk
    exact hleft k z hklt hk
  · obtain ⟨k, hk⟩ := List.mem_iff_getElem?.mp hz
    rw [List.getElem?_drop] at hk
    exact hright (cut + k) z (Nat.le_add_right _ _) hk

/-! ## The loop and the final pass -/

/-- A range longer than the threshold has a least element in front of it. -/
def FrontLeast (lt : α → α → Bool) (l : List α) : Prop :=
  introsortThreshold < l.length → ∃ y ∈ l.take introsortThreshold, ∀ z ∈ l, lt z y = false

theorem FrontLeast.of_sorted {lt : α → α → Bool} (h : StrictWeakOrder lt) {l : List α}
    (hl : Sorted lt l) : FrontLeast lt l := by
  intro hlong
  have hne : l ≠ [] := List.ne_nil_of_length_pos (Nat.lt_of_le_of_lt (Nat.zero_le _) hlong)
  obtain ⟨x, l, rfl⟩ := List.exists_cons_of_ne_nil hne
  refine ⟨x, List.mem_cons_self .., fun z hz => ?_⟩
  obtain rfl | hz := List.mem_cons.mp hz
  · exact h.not_self z
  · exact (List.pairwise_cons.mp hl).1 z hz

/-- The least element of the first part is least in the whole. -/
theorem FrontLeast.append {lt : α → α → Bool} (h : StrictWeakOrder lt) {a b : List α}
    (hne : a ≠ []) (ha : FrontLeast lt a) (hab : NotAbove lt a b) : FrontLeast lt (a ++ b) := by
  intro _
  have hleast : ∃ y ∈ a.take introsortThreshold, ∀ z ∈ a, lt z y = false := by
    by_cases hlong : introsortThreshold < a.length
    · exact ha hlong
    · rw [List.take_of_length_le (by omega)]
      exact exists_least h hne
  obtain ⟨y, hy, hya⟩ := hleast
  refine ⟨y, ?_, fun z hz => ?_⟩
  · rw [List.take_append]
    exact List.mem_append_left _ hy
  · obtain hz | hz := List.mem_append.mp hz
    · exact hya z hz
    · exact hab y (List.mem_of_mem_take hy) z hz

theorem introsortLoop_spec (h : StrictWeakOrder pred) (proj : α → κ) (depthLimit : Nat)
    (l : List α) :
    ∃ r, introsortLoop pred proj depthLimit l = .ok r ∧ l.Perm r ∧
      FrontLeast (projected pred proj) r := by
  have hproj := h.projected proj
  induction depthLimit generalizing l with
  | zero =>
    rw [introsortLoop]
    split
    next hlong =>
      obtain ⟨a, b, hrun, hlen, hperm, hsorted, _⟩ := partialSort_spec h proj
        (Nat.lt_of_le_of_lt (Nat.zero_le _) hlong) (Nat.le_refl l.length)
      have hb : b = [] := by
        apply List.eq_nil_of_length_eq_zero
        have := hperm.length_eq
        rw [List.length_append] at this
        omega
      subst hb
      rw [List.append_nil] at hrun hperm
      exact ⟨a, by rw [hrun, exec_bind_ok], hperm, .of_sorted hproj hsorted⟩
    next hshort => exact ⟨l, rfl, .refl l, fun hlong => absurd hlong hshort⟩
  | succ depthLimit ih =>
    rw [introsortLoop]
    split
    next hlong =>
      obtain ⟨_, v, a, b, _, _, hrun, hperm, hane, _, hav, hbv⟩ := unguardedPartition_spec h proj
        (show 2 ≤ l.length from Nat.le_of_lt (Nat.lt_of_le_of_lt (by decide) hlong))
      obtain ⟨a', hrun_a, hperm_a, hfront⟩ := ih a
      obtain ⟨b', hrun_b, hperm_b, _⟩ := ih b
      have hsecond : onRange (a ++ b) a.length (a ++ b).length
          (introsortLoop pred proj depthLimit) = .ok (a ++ b') := by
        have := onRange_append (p := a) (q := []) rfl (by rw [← List.length_append]) hrun_b
        rwa [List.append_nil, List.append_nil] at this
      have hfirst : onRange (a ++ b') 0 a.length (introsortLoop pred proj depthLimit) =
          .ok (a' ++ b') :=
        onRange_append (p := []) rfl (Nat.zero_add _).symm hrun_a
      refine ⟨a' ++ b', ?_, hperm.trans (hperm_a.append hperm_b), ?_⟩
      · rw [hrun, exec_bind_ok]
        dsimp only
        rw [hsecond, exec_bind_ok, hfirst]
      · have hne : a' ≠ [] := fun hnil => hane (List.perm_nil.mp (hnil ▸ hperm_a))
        apply hfront.append hproj hne
        intro x hx y hy
        exact hproj.not_lt_trans (hav x (hperm_a.mem_iff.mpr hx)) (hbv y (hperm_b.mem_iff.mpr hy))
    next hshort => exact ⟨l, rfl, .refl l, fun hlong => absurd hlong hshort⟩

/-- The least element among the first 16 stops every insertion behind them. -/
theorem finalInsertionSort_spec (h : StrictWeakOrder pred) {l : List α}
    (hfront : FrontLeast (projected pred proj) l) :
    ∃ r, finalInsertionSort pred proj l = .ok r ∧ l.Perm r ∧ Sorted (projected pred proj) r := by
  rw [finalInsertionSort]
  split
  next hlong =>
    obtain ⟨y, hy, hleast⟩ := hfront hlong
    obtain ⟨p, hrun, hp⟩ := insertionSort_spec h proj (l.take introsortThreshold)
    have htake : (l.take introsortThreshold).length = introsortThreshold := by
      rw [List.length_take]
      omega
    have hplen := hp.length_eq
    have hrange : onRange (l.take introsortThreshold ++ l.drop introsortThreshold) 0
        introsortThreshold (insertionSort pred proj) = .ok (p ++ l.drop introsortThreshold) :=
      onRange_append (p := []) rfl (by rw [htake]; rfl) hrun
    have hguard : ∃ y ∈ p, ∀ z ∈ l.drop introsortThreshold, projected pred proj z y = false :=
      ⟨y, hp.mem_iff.mpr hy, fun z hz => hleast z (List.mem_of_mem_drop hz)⟩
    obtain ⟨r, hloop, hr⟩ := unguardedInsertionLoop_spec h hp.sorted _ hguard
    rw [List.take_append_drop] at hrange
    refine ⟨r, ?_, ?_, hr.sorted⟩
    · have hcount : (p ++ l.drop introsortThreshold).length - introsortThreshold =
          (l.drop introsortThreshold).length := by
        rw [List.length_append, hplen, htake, Nat.add_sub_cancel_left]
      rw [hplen, htake] at hloop
      rw [hrange, exec_bind_ok, unguardedInsertionSort, hcount, hloop]
    · have hall := (hp.stable.perm.append_right (l.drop introsortThreshold)).trans hr.stable.perm
      rwa [List.take_append_drop] at hall
  next =>
    obtain ⟨r, hrun, hr⟩ := insertionSort_spec h proj l
    exact ⟨r, hrun, hr.stable.perm, hr.sorted⟩

theorem log2Loop_ok (k fuel : Nat) {n : Nat} (hpos : 0 < n) (hfuel : n < fuel) :
    ∃ m, log2Loop k fuel n = .ok m := by
  induction fuel generalizing k n with
  | zero => omega
  | succ fuel ih =>
    rw [log2Loop]
    by_cases hn : n = 1
    · rw [if_neg (by simp [hn])]
      exact ⟨k, rfl⟩
    · rw [if_pos hn]
      exact ih (k + 1) (by omega) (by omega)

theorem sort_spec (h : StrictWeakOrder pred) (proj : α → κ) (l : List α) :
    ∃ r, sort pred proj l = .ok (r, l.length) ∧ l.Perm r ∧ Sorted (projected pred proj) r := by
  rw [sort]
  by_cases hnil : l = []
  · subst hnil
    exact ⟨[], rfl, .nil, .nil⟩
  · have hpos := List.length_pos_of_ne_nil hnil
    obtain ⟨k, hlog⟩ := log2Loop_ok 0 (l.length + 1) hpos (Nat.lt_succ_self _)
    obtain ⟨m, hloop, hperm, hfront⟩ := introsortLoop_spec h proj (k * 2) l
    obtain ⟨r, hfinal, hperm', hsorted⟩ := finalInsertionSort_spec h hfront
    refine ⟨r, ?_, hperm.trans hperm', hsorted⟩
    rw [if_pos (by omega), log2, hlog, exec_bind_ok, hloop, exec_bind_ok, hfinal, exec_bind_ok]

/-- `sort` returns a sorted permutation. No scan of `unguarded_partition` leaves the range,
and the cut is inside it and separates the elements by the pivot value. From whatever depth
limit on, no insertion of the final pass looks in front of the range. -/
theorem sort_sorted (h : StrictWeakOrder pred) (proj : α → κ) (l : List α) :
    (∃ r, sort pred proj l = .ok (r, l.length) ∧ l.Perm r ∧ Sorted (projected pred proj) r) ∧
      (2 ≤ l.length → ∃ p v r cut, medianPnt pred proj l = .ok p ∧ l[p]? = some v ∧
        unguardedPartition pred proj l = .ok (r, cut) ∧ l.Perm r ∧ 0 < cut ∧ cut < l.length ∧
        (∀ x ∈ r.take cut, projected pred proj v x = false) ∧
        ∀ x ∈ r.drop cut, projected pred proj x v = false) ∧
      ∀ depthLimit, ∃ m r, introsortLoop pred proj depthLimit l = .ok m ∧
        finalInsertionSort pred proj m = .ok r ∧ l.Perm r ∧ Sorted (projected pred proj) r := by
  refine ⟨sort_spec h proj l, fun hlen => ?_, fun depthLimit => ?_⟩
  · obtain ⟨p, v, a, b, hmedian, hv, hrun, hperm, hane, hbne, hav, hbv⟩ :=
      unguardedPartition_spec h proj hlen
    have hapos := List.length_pos_of_ne_nil hane
    have hbpos := List.length_pos_of_ne_nil hbne
    have htotal := hperm.length_eq
    rw [List.length_append] at htotal
    refine ⟨p, v, a ++ b, a.length, hmedian, hv, hrun, hperm, hapos, by omega, ?_, ?_⟩
    · rwa [List.take_left]
    · rwa [List.drop_left]
  · obtain ⟨m, hloop, hperm, hfront⟩ := introsortLoop_spec h proj depthLimit l
    obtain ⟨r, hfinal, hperm', hsorted⟩ := finalInsertionSort_spec h hfront
    exact ⟨m, r, hloop, hfinal, hperm.trans hperm', hsorted⟩

theorem sort_sorted_nat :
    (∃ r, sort (fun a b : Nat => decide (a < b)) id [3, 1, 2] = .ok (r, 3) ∧ [3, 1, 2].Perm r ∧
        Sorted (projected (fun a b : Nat => decide (a < b)) id) r) ∧
      (2 ≤ 3 → ∃ p v r cut, medianPnt (fun a b : Nat => decide (a < b)) id [3, 1, 2] = .ok p ∧
        [3, 1, 2][p]? = some v ∧
        unguardedPartition (fun a b : Nat => decide (a < b)) id [3, 1, 2] = .ok (r, cut) ∧
        [3, 1, 2].Perm r ∧ 0 < cut ∧ cut < 3 ∧
        (∀ x ∈ r.take cut, projected (fun a b : Nat => decide (a < b)) id v x = false) ∧
        ∀ x ∈ r.drop cut, projected (fun a b : Nat => decide (a < b)) id x v = false) ∧
      ∀ depthLimit, ∃ m r,
        introsortLoop (fun a b : Nat => decide (a < b)) id depthLimit [3, 1, 2] = .ok m ∧
        finalInsertionSort (fun a b : Nat => decide (a < b)) id m = .ok r ∧ [3, 1, 2].Perm r ∧
        Sorted (projected (fun a b : Nat => decide (a < b)) id) r :=
  sort_sorted (.of_linearOrder Nat) id [3, 1, 2]

end EARanges.Algorithm
