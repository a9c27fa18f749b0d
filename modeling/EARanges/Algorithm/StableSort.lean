import EARanges.Algorithm.InplaceMerge
import EARanges.Algorithm.InsertionSort
import EARanges.Utility.Memory
import Mathlib.Logic.Relation

/-!
# `stable_sort`

algorithm/stable_sort.hpp. Without a buffer the halves are sorted in place and merged by
`inplace_merge_no_buffer`. With one, pieces of 7 are sorted by insertion and merged to and
fro between the range and the buffer, the runs doubling in each pass. A buffer of `k`
elements is `k` raw cells, and what is written past it faults.
-/
namespace EARanges.Algorithm
open EARanges.Support EARanges.Utility

variable {α κ : Type}

section
variable (pred : κ → κ → Bool) (proj : α → κ)

def inplaceStableSort (t : RangeTraits) : Nat → List α → Exec (List α)
  | 0, _ => .error .fuel
  | fuel + 1, l =>
    if l.length < 15 then insertionSort pred proj l
    else do
      let middle := l.length / 2
      let l ← onRange l 0 middle (inplaceStableSort t fuel)
      let l ← onRange l middle l.length (inplaceStableSort t fuel)
      inplaceMergeNoBuffer pred proj t fuel l middle middle (l.length - middle)

/-- The `while` loop of `merge_sort_loop` and the merge after it; `n` is `last - first`. -/
def mergeSortRounds (step : Nat) (s : Store α) : Nat → Ptr → Nat → Ptr → Exec (Store α)
  | 0, _, _, _ => .error .fuel
  | fuel + 1, first, n, result =>
    let twoStep := 2 * step
    if twoStep ≤ n then do
      let (s, result) ← merge pred proj s first step (first.advance step) step result
      mergeSortRounds step s fuel (first.advance twoStep) (n - twoStep) result
    else do
      let step := min n step
      let (s, _) ← merge pred proj s first step (first.advance step) (n - step) result
      .ok s

def mergeSortLoop (s : Store α) (first : Ptr) (n : Nat) (result : Ptr) (step : Nat) :
    Exec (Store α) :=
  mergeSortRounds pred proj step s (n + 1) first n result

def mergeSortChunkSize : Nat := 7

/-- The loop of `chunk_insertion_sort` and the sort of what is left. -/
def chunkInsertionRounds (chunkSize : Nat) : Nat → List α → Nat → Exec (List α)
  | 0, _, _ => .error .fuel
  | fuel + 1, l, first =>
    if chunkSize ≤ l.length - first then do
      let l ← onRange l first (first + chunkSize) (insertionSort pred proj)
      chunkInsertionRounds chunkSize fuel l (first + chunkSize)
    else onRange l first l.length (insertionSort pred proj)

def chunkInsertionSort (l : List α) (chunkSize : Nat) : Exec (List α) :=
  chunkInsertionRounds pred proj chunkSize (l.length + 1) l 0

/-- From the label `loop` on: back into the range, and again to the buffer if the runs are
still shorter than the range. -/
def mergeSortPingPong (first buffer : Ptr) (len : Nat) (s : Store α) :
    Nat → Nat → Exec (Store α)
  | 0, _ => .error .fuel
  | fuel + 1, step => do
    let s ← mergeSortLoop pred proj s buffer len first step
    let step := step * 2
    if len ≤ step then .ok s
    else do
      let s ← mergeSortLoop pred proj s first len buffer step
      mergeSortPingPong first buffer len s fuel (step * 2)

/-- The range lies at address 0 and the `bufSize` raw cells of the buffer behind it. -/
def mergeSortWithBuffer (bufSize : Nat) (l : List α) : Exec (List α) := do
  let len := l.length
  let step := mergeSortChunkSize
  let l ← chunkInsertionSort pred proj l step
  if len ≤ step then .ok l
  else do
    let first : Ptr := { addr := 0 }
    let buffer : Ptr := { addr := len }
    let tmpbuf : Ptr := { addr := len, raw := true }
    let s ← mergeSortLoop pred proj (withBuffer l bufSize) first len tmpbuf step
    let s ← mergeSortPingPong pred proj first buffer len s (len + 1) (step * 2)
    loadMany s first len

/-- The body of `stable_sort_adaptive`, its calls to itself going through `again`. -/
def stableSortAdaptiveBody (t : RangeTraits) (bufSize fuel : Nat) (again : List α → Exec (List α))
    (l : List α) : Exec (List α) := do
  let len := (l.length + 1) / 2
  let middle := len
  let l ←
    if bufSize < len then do
      let l ← onRange l 0 middle again
      onRange l middle l.length again
    else do
      let l ← onRange l 0 middle (mergeSortWithBuffer pred proj bufSize)
      onRange l middle l.length (mergeSortWithBuffer pred proj bufSize)
  mergeAdaptive pred proj t bufSize fuel l middle middle (l.length - middle)

def stableSortAdaptive (t : RangeTraits) (bufSize : Nat) : Nat → List α → Exec (List α)
  | 0, _ => .error .fuel
  | fuel + 1, l =>
    stableSortAdaptiveBody pred proj t bufSize fuel (stableSortAdaptive t bufSize fuel) l

/-- `stable_sort`, which also returns `last`. The buffer is asked for by its length. -/
def stableSort (t : RangeTraits) (getBuffer : Nat → TemporaryBuffer) (fuel : Nat) (l : List α) :
    Exec (List α × Nat) := do
  let len := l.length
  let buf : TemporaryBuffer := if len > 256 then getBuffer len else ⟨false, 0⟩
  let l ←
    if buf.first = false then inplaceStableSort pred proj t fuel l
    else stableSortAdaptive pred proj t buf.second fuel l
  .ok (l, len)

end

variable {pred : κ → κ → Bool} {proj : α → κ}

/-! ## A pass -/

/-- The first two runs of a range that is long enough for them. -/
theorem cut_two_runs {lt : α → α → Bool} {step : Nat} {l : List α} (hruns : SortedRuns lt step l)
    (hlong : 2 * step ≤ l.length) :
    ∃ a b rest, l = a ++ b ++ rest ∧ a.length = step ∧ b.length = step ∧ Sorted lt a ∧
      Sorted lt b ∧ SortedRuns lt step rest := by
  obtain ⟨ab, rest, rfl, hab⟩ := exists_cut hlong
  obtain ⟨a, b, rfl, ha⟩ := exists_cut (show step ≤ ab.length by omega)
  have hb : b.length = step := by
    rw [List.length_append] at hab
    omega
  rw [List.append_assoc] at hruns
  obtain ⟨hsa, hruns₁⟩ := (sortedRuns_append ha).mp hruns
  obtain ⟨hsb, hrest⟩ := (sortedRuns_append hb).mp hruns₁
  exact ⟨a, b, rest, rfl, ha, hb, hsa, hsb, hrest⟩

/-- Otherwise there are at most two runs, and the second may be empty. -/
theorem cut_last_runs {lt : α → α → Bool} {step : Nat} {l : List α} (hruns : SortedRuns lt step l)
    (hshort : l.length < 2 * step) :
    ∃ a b, l = a ++ b ∧ a.length = min l.length step ∧ Sorted lt a ∧ Sorted lt b := by
  have hfirst := hruns 0
  have hsecond := hruns 1
  rw [Nat.zero_mul, List.drop_zero] at hfirst
  rw [Nat.one_mul, List.take_of_length_le (by rw [List.length_drop]; omega)] at hsecond
  exact ⟨l.take step, l.drop step, (List.take_append_drop step l).symm,
    by rw [List.length_take, Nat.min_comm], hfirst, hsecond⟩

/-- Two neighbouring parts are merged into cells apart from them. -/
theorem merge_apart (pred : κ → κ → Bool) (proj : α → κ) {s : Store α} {first result : Ptr}
    {a b : List α} (hl : Holds s first (a ++ b))
    (hw : Writable s result (a.length + b.length))
    (hapart : Apart result (a.length + b.length) first (a.length + b.length)) :
    ∃ s', merge pred proj s first a.length (first.advance a.length) b.length result =
        .ok (s', result.advance (a.length + b.length)) ∧
      Holds s' result (stableMerge (projected pred proj) a b) ∧
      SameOutside result (a.length + b.length) s s' := by
  obtain ⟨hla, hlb⟩ := holds_append.mp hl
  apply merge_spec pred proj hla hlb hw
  · apply Apart.trails
    exact hapart.mono (by omega) (by omega)
  · apply Apart.trails
    exact hapart.advance_right (Nat.le_refl _)

/-- One pass over runs of `step` leaves runs of twice that in the output. -/
theorem mergeSortRounds_spec (h : StrictWeakOrder pred) {step : Nat} (hstep : 0 < step) (fuel : Nat)
    {s : Store α} {first result : Ptr} {l : List α} (hl : Holds s first l)
    (hw : Writable s result l.length) (hapart : Apart result l.length first l.length)
    (hruns : SortedRuns (projected pred proj) step l) (hfuel : l.length < fuel) :
    ∃ s' r, mergeSortRounds pred proj step s fuel first l.length result = .ok s' ∧
      Holds s' result r ∧ SortedRuns (projected pred proj) (2 * step) r ∧
      StablePerm (projected pred proj) l r ∧ SameOutside result l.length s s' := by
  have hproj := h.projected proj
  induction fuel generalizing s first result l with
  | zero => omega
  | succ fuel ih =>
    rw [mergeSortRounds]
    by_cases hlong : 2 * step ≤ l.length
    · -- a round merges two runs
      obtain ⟨a, b, rest, rfl, ha, hb, hsa, hsb, hrest⟩ := cut_two_runs hruns hlong
      have hab : (a ++ b).length = 2 * step := by
        rw [List.length_append]
        omega
      obtain ⟨hlab, hlrest⟩ := holds_append.mp hl
      simp only [List.length_append] at hw hapart hfuel hlrest
      obtain ⟨s₁, hrun₁, hout₁, hsame₁⟩ := merge_apart pred proj hlab
        (hw.mono (by omega)) (hapart.mono (by omega) (by omega))
      have hmerge := isStableSort_merge hproj hsa hsb
      have hmlen := hmerge.length_eq
      have hapart₁ : Apart result (a.length + b.length) (first.advance (a.length + b.length))
          rest.length :=
        (hapart.mono (by omega) (Nat.le_refl _)).advance_right (by omega)
      obtain ⟨s₂, r, hrun₂, hout₂, hruns₂, hperm, hsame₂⟩ := ih
        (hlrest.of_sameOutside hsame₁ hapart₁) (hsame₁.writable_advance hw)
        ((hapart.advance_left (by omega)).advance_right (by omega)) hrest (by omega)
      rw [List.length_append] at hmlen
      refine ⟨s₂, stableMerge (projected pred proj) a b ++ r, ?_, ?_, ?_, ?_, ?_⟩
      · have hlen : (a ++ b ++ rest).length - 2 * step = rest.length := by
          rw [List.length_append]
          omega
        rw [ha, hb] at hrun₁
        rw [ha, hb] at hrun₂
        rw [if_pos hlong, hrun₁, exec_bind_ok]
        dsimp only
        rw [hlen, ← hrun₂, Nat.two_mul]
      · rw [holds_append, hmlen]
        exact ⟨SameOutside.holds_front (by rw [hmlen]; exact hsame₂) hout₁, hout₂⟩
      · refine (sortedRuns_append ?_).mpr ⟨hmerge.sorted, hruns₂⟩
        omega
      · exact hmerge.stable.append hperm
      · rw [List.length_append, List.length_append]
        exact hsame₁.trans hsame₂
    · obtain ⟨a, b, hl', ha, hsa, hsb⟩ := cut_last_runs hruns (by omega)
      subst hl'
      have hb : (a ++ b).length - a.length = b.length := by
        rw [List.length_append, Nat.add_sub_cancel_left]
      rw [List.length_append] at hw hapart
      obtain ⟨s₁, hrun₁, hout₁, hsame₁⟩ := merge_apart pred proj hl hw hapart
      have hmerge := isStableSort_merge hproj hsa hsb
      refine ⟨s₁, stableMerge (projected pred proj) a b, ?_, hout₁, .of_sorted hmerge.sorted _,
        hmerge.stable, by rw [List.length_append]; exact hsame₁⟩
      rw [if_neg hlong, ← ha]
      dsimp only
      rw [hb, hrun₁, exec_bind_ok]

theorem mergeSortLoop_spec (h : StrictWeakOrder pred) {step : Nat} (hstep : 0 < step)
    {s : Store α} {first result : Ptr} {l : List α} (hl : Holds s first l)
    (hw : Writable s result l.length) (hapart : Apart result l.length first l.length)
    (hruns : SortedRuns (projected pred proj) step l) :
    ∃ s' r, mergeSortLoop pred proj s first l.length result step = .ok s' ∧
      Holds s' result r ∧ SortedRuns (projected pred proj) (2 * step) r ∧
      StablePerm (projected pred proj) l r ∧ SameOutside result l.length s s' :=
  mergeSortRounds_spec h hstep _ hl hw hapart hruns (Nat.lt_succ_self _)

/-! ## With the buffer -/

theorem chunkInsertionRounds_spec (h : StrictWeakOrder pred) (proj : α → κ) {chunkSize : Nat}
    (hchunk : 0 < chunkSize) (fuel : Nat) (p l : List α) (hfuel : l.length < fuel) :
    ∃ r, chunkInsertionRounds pred proj chunkSize fuel (p ++ l) p.length = .ok (p ++ r) ∧
      SortedRuns (projected pred proj) chunkSize r ∧ StablePerm (projected pred proj) l r := by
  induction fuel generalizing p l with
  | zero => omega
  | succ fuel ih =>
    have hlen : (p ++ l).length - p.length = l.length := by
      rw [List.length_append, Nat.add_sub_cancel_left]
    rw [chunkInsertionRounds, hlen]
    by_cases hle : chunkSize ≤ l.length
    · obtain ⟨a, rest, rfl, ha⟩ := exists_cut hle
      obtain ⟨r₁, hrun₁, hsort₁⟩ := insertionSort_spec h proj a
      have hlen₁ := hsort₁.length_eq
      rw [List.length_append] at hfuel
      obtain ⟨r₂, hrun₂, hruns₂, hperm₂⟩ := ih (p ++ r₁) rest (by omega)
      have hpos : p.length + chunkSize = (p ++ r₁).length := by
        rw [List.length_append]
        omega
      refine ⟨r₁ ++ r₂, ?_, ?_, hsort₁.stable.append hperm₂⟩
      · rw [if_pos hle, ← List.append_assoc, onRange_append rfl (by rw [ha]) hrun₁, exec_bind_ok,
          hpos, hrun₂, List.append_assoc]
      · exact (sortedRuns_append (by omega)).mpr ⟨hsort₁.sorted, hruns₂⟩
    · -- a piece shorter than a chunk is left
      obtain ⟨r, hrun, hsort⟩ := insertionSort_spec h proj l
      have hrange := onRange_append (p := p) (q := []) rfl rfl hrun
      rw [if_neg hle]
      refine ⟨r, ?_, .of_sorted hsort.sorted _, hsort.stable⟩
      rw [List.length_append]
      simpa only [List.append_nil] using hrange

/-- A pass from the buffer and a pass to it, until one run is left in the range. -/
theorem mergeSortPingPong_spec (h : StrictWeakOrder pred) {first buffer : Ptr} (fuel : Nat)
    {step : Nat} (hstep : 0 < step) {s : Store α} {l : List α} (hl : Holds s buffer l)
    (hw : Writable s first l.length) (hapart : Apart first l.length buffer l.length)
    (hruns : SortedRuns (projected pred proj) step l) (hpos : 0 < fuel)
    (hfuel : l.length < fuel + step) :
    ∃ s' r, mergeSortPingPong pred proj first buffer l.length s fuel step = .ok s' ∧
      Holds s' first r ∧ IsStableSort (projected pred proj) l r := by
  induction fuel generalizing step s l with
  | zero => omega
  | succ fuel ih =>
    obtain ⟨s₁, r₁, hrun₁, hout₁, hruns₁, hperm₁, hsame₁⟩ :=
      mergeSortLoop_spec h hstep hl hw hapart hruns
    have hlen₁ := hperm₁.length_eq
    rw [mergeSortPingPong, hrun₁, exec_bind_ok, Nat.mul_comm step 2]
    by_cases hdone : l.length ≤ 2 * step
    · refine ⟨s₁, r₁, by rw [if_pos hdone], hout₁, ?_, hperm₁⟩
      exact hruns₁.sorted (by omega)
    · rw [if_neg hdone]
      have hbuf := hl.of_sameOutside hsame₁ hapart
      have hwbuf := hbuf.writable
      rw [hlen₁] at hwbuf hapart
      obtain ⟨s₂, r₂, hrun₂, hout₂, hruns₂, hperm₂, hsame₂⟩ :=
        mergeSortLoop_spec h (by omega) hout₁ hwbuf hapart.symm hruns₁
      have hlen₂ := hperm₂.length_eq
      have hwfirst := (hout₁.of_sameOutside hsame₂ hapart.symm).writable
      rw [hlen₂] at hwfirst hapart
      rw [Nat.mul_comm 2 (2 * step)] at hruns₂
      obtain ⟨s₃, r₃, hrun₃, hout₃, hsort₃⟩ := ih (by omega) hout₂ hwfirst hapart hruns₂ (by omega)
        (by omega)
      refine ⟨s₃, r₃, ?_, hout₃, (hsort₃.of_stablePerm hperm₂).of_stablePerm hperm₁⟩
      rw [hlen₁, hrun₂, exec_bind_ok, hlen₂]
      exact hrun₃

/-- A buffer of the length of the range suffices, and the last pass is into the range. -/
theorem mergeSortWithBuffer_spec (h : StrictWeakOrder pred) (proj : α → κ) {k : Nat} {l : List α}
    (hk : l.length ≤ k) :
    ∃ r, mergeSortWithBuffer pred proj k l = .ok r ∧ IsStableSort (projected pred proj) l r := by
  obtain ⟨c, hchunks, hruns, hperm⟩ := chunkInsertionRounds_spec h proj
    (show 0 < mergeSortChunkSize by decide) (l.length + 1) [] l (Nat.lt_succ_self _)
  have hlen := hperm.length_eq
  rw [mergeSortWithBuffer, chunkInsertionSort]
  simp only [List.nil_append, List.length_nil] at hchunks
  rw [hchunks, exec_bind_ok]
  by_cases hshort : l.length ≤ mergeSortChunkSize
  · refine ⟨c, by rw [if_pos hshort], hruns.sorted (by omega), hperm⟩
  · rw [if_neg hshort]
    obtain ⟨s₁, r₁, hrun₁, hout₁, hruns₁, hperm₁, hsame₁⟩ := mergeSortLoop_spec h (by decide)
      (withBuffer_holds c k) (withBuffer_writable c (n := c.length) (by omega)) (by
        intro i hi j hj
        simp only [Ptr.cell, Bool.false_eq_true, if_false]
        omega) hruns
    have hlen₁ := hperm₁.length_eq
    have hall₁ := (withBuffer_holds c k).of_sameOutside hsame₁ (by
        intro i hi j hj
        simp only [Ptr.cell, Bool.false_eq_true, if_false]
        omega)
    have hw₁ := hall₁.writable
    rw [hlen₁] at hw₁
    obtain ⟨s₂, r, hrun₂, hout₂, hsort₂⟩ := mergeSortPingPong_spec h (r₁.length + 1) (by decide)
      (holds_raw false hout₁) hw₁ (by
        intro i hi j hj
        simp only [Ptr.cell, Bool.false_eq_true, if_false]
        omega) hruns₁ (by omega) (by omega)
    have hsort := (hsort₂.of_stablePerm hperm₁).of_stablePerm hperm
    have hload := loadMany_of_holds hout₂
    rw [hsort.length_eq] at hload
    refine ⟨r, ?_, hsort⟩
    rw [← hlen] at hrun₁ hlen₁
    rw [← hlen, ← hlen₁, Nat.mul_comm 2] at hrun₂
    dsimp only
    rw [hrun₁, exec_bind_ok, hrun₂, exec_bind_ok, hload]

/-! ## The recursions -/

/-- Two parts sorted on their own and merged. -/
theorem mergeAdaptive_halves (h : StrictWeakOrder pred) (t : RangeTraits) (k fuel : Nat)
    {a b r₁ r₂ : List α} (h₁ : IsStableSort (projected pred proj) a r₁)
    (h₂ : IsStableSort (projected pred proj) b r₂) (hfuel : (a ++ b).length < fuel) :
    ∃ r, mergeAdaptive pred proj t k fuel (r₁ ++ r₂) a.length a.length
        ((r₁ ++ r₂).length - a.length) = .ok r ∧ IsStableSort (projected pred proj) (a ++ b) r := by
  have hlen₁ := h₁.length_eq
  have hlen₂ := h₂.length_eq
  rw [List.length_append] at hfuel
  obtain ⟨r, hrun, hr⟩ := mergeAdaptive_spec h t k fuel h₁.sorted h₂.sorted (by omega)
  refine ⟨r, ?_, hr.of_stablePerm (h₁.stable.append h₂.stable)⟩
  rw [List.length_append, hlen₁, Nat.add_sub_cancel_left, ← hlen₁]
  exact hrun

theorem inplaceStableSort_spec (h : StrictWeakOrder pred) (proj : α → κ) (t : RangeTraits)
    (fuel : Nat) (l : List α) (hfuel : l.length + 1 < fuel) :
    ∃ r, inplaceStableSort pred proj t fuel l = .ok r ∧
      IsStableSort (projected pred proj) l r := by
  induction fuel generalizing l with
  | zero => omega
  | succ fuel ih =>
    rw [inplaceStableSort]
    by_cases hshort : l.length < 15
    · rw [if_pos hshort]
      exact insertionSort_spec h proj l
    · obtain ⟨a, b, hl, ha⟩ := exists_cut (show l.length / 2 ≤ l.length by omega)
      subst hl
      have hlen : (a ++ b).length = a.length + b.length := List.length_append
      obtain ⟨r₁, hrun₁, hsort₁⟩ := ih a (by omega)
      obtain ⟨r₂, hrun₂, hsort₂⟩ := ih b (by omega)
      obtain ⟨hfirst, hsecond⟩ := onRange_halves hrun₁ hsort₁.length_eq hrun₂
      rw [if_neg hshort, ← ha]
      dsimp only
      rw [hfirst, exec_bind_ok, hsecond, exec_bind_ok]
      exact mergeAdaptive_halves h t 0 fuel hsort₁ hsort₂ (by omega)

/-- With room for at least one element the halves get shorter. -/
theorem stableSortAdaptive_spec (h : StrictWeakOrder pred) (proj : α → κ) (t : RangeTraits)
    {k : Nat} (hk : 0 < k) (fuel : Nat) (l : List α) (hfuel : l.length + 1 < fuel) :
    ∃ r, stableSortAdaptive pred proj t k fuel l = .ok r ∧
      IsStableSort (projected pred proj) l r := by
  induction fuel generalizing l with
  | zero => omega
  | succ fuel ih =>
    obtain ⟨a, b, hl, ha⟩ := exists_cut (show (l.length + 1) / 2 ≤ l.length by omega)
    subst hl
    have hlen : (a ++ b).length = a.length + b.length := List.length_append
    rw [stableSortAdaptive, stableSortAdaptiveBody, ← ha]
    dsimp only
    by_cases hbig : k < a.length
    · obtain ⟨r₁, hrun₁, hsort₁⟩ := ih a (by omega)
      obtain ⟨r₂, hrun₂, hsort₂⟩ := ih b (by omega)
      obtain ⟨hfirst, hsecond⟩ := onRange_halves hrun₁ hsort₁.length_eq hrun₂
      rw [if_pos hbig, hfirst, exec_bind_ok, hsecond, exec_bind_ok]
      exact mergeAdaptive_halves h t k fuel hsort₁ hsort₂ (by omega)
    · obtain ⟨r₁, hrun₁, hsort₁⟩ := mergeSortWithBuffer_spec h proj (show a.length ≤ k by omega)
      obtain ⟨r₂, hrun₂, hsort₂⟩ := mergeSortWithBuffer_spec h proj (show b.length ≤ k by omega)
      obtain ⟨hfirst, hsecond⟩ := onRange_halves hrun₁ hsort₁.length_eq hrun₂
      rw [if_neg hbig, hfirst, exec_bind_ok, hsecond, exec_bind_ok]
      exact mergeAdaptive_halves h t k fuel hsort₁ hsort₂ (by omega)

/-- All ways lead to one list. -/
theorem stableSort_paths (h : StrictWeakOrder pred) (proj : α → κ) (t : RangeTraits) (l : List α) :
    ∃ r, IsStableSort (projected pred proj) l r ∧
      (∀ fuel, l.length + 1 < fuel → inplaceStableSort pred proj t fuel l = .ok r) ∧
      ∀ k, 0 < k → ∀ fuel, l.length + 1 < fuel →
        stableSortAdaptive pred proj t k fuel l = .ok r := by
  have hproj := h.projected proj
  obtain ⟨r, _, hr⟩ := inplaceStableSort_spec h proj t (l.length + 2) l
    (Nat.lt_succ_self _)
  refine ⟨r, hr, fun fuel hfuel => ?_, fun k hk fuel hfuel => ?_⟩
  · obtain ⟨r', hrun', hr'⟩ := inplaceStableSort_spec h proj t fuel l hfuel
    rw [hrun', hr'.unique hproj hr]
  · obtain ⟨r', hrun', hr'⟩ := stableSortAdaptive_spec h proj t hk fuel l hfuel
    rw [hrun', hr'.unique hproj hr]

/-- A buffer that is not asked for or usable leaves one of the two ways. -/
theorem stableSort_eq {t : RangeTraits} {l r : List α} {getBuffer : Nat → TemporaryBuffer}
    (hinplace : ∀ fuel, l.length + 1 < fuel → inplaceStableSort pred proj t fuel l = .ok r)
    (hadaptive : ∀ k, 0 < k → ∀ fuel, l.length + 1 < fuel →
      stableSortAdaptive pred proj t k fuel l = .ok r)
    (hbuf : l.length ≤ 256 ∨ (getBuffer l.length).Usable) {fuel : Nat}
    (hfuel : l.length + 1 < fuel) :
    stableSort pred proj t getBuffer fuel l = .ok (r, l.length) := by
  rw [stableSort]
  dsimp only
  by_cases hlong : l.length > 256
  · have husable := hbuf.resolve_left (by omega)
    rw [if_pos hlong]
    cases hfirst : (getBuffer l.length).first with
    | false => rw [if_pos rfl, hinplace fuel hfuel, exec_bind_ok]
    | true => rw [if_neg (by simp), hadaptive _ (husable hfirst) fuel hfuel, exec_bind_ok]
  · rw [if_neg hlong, if_pos rfl, hinplace fuel hfuel, exec_bind_ok]

theorem stableSort_returns {t : RangeTraits} {l r : List α} {getBuffer : Nat → TemporaryBuffer}
    (hinplace : ∀ fuel, l.length + 1 < fuel → inplaceStableSort pred proj t fuel l = .ok r)
    (hadaptive : ∀ k, 0 < k → ∀ fuel, l.length + 1 < fuel →
      stableSortAdaptive pred proj t k fuel l = .ok r)
    (hbuf : l.length ≤ 256 ∨ (getBuffer l.length).Usable) :
    Returns (fun fuel => stableSort pred proj t getBuffer fuel l) (r, l.length) :=
  ⟨l.length + 2, fun _ hfuel => stableSort_eq hinplace hadaptive hbuf hfuel⟩

/-- On `n` elements `stable_sort_adaptive` calls itself on `m`. -/
def AdaptiveCall (bufSize n m : Nat) : Prop :=
  bufSize < (n + 1) / 2 ∧ (m = (n + 1) / 2 ∨ m = n - (n + 1) / 2)

/-- Every call that is made on the way down from `n` elements is on fewer elements. -/
def CallsShrink (bufSize n : Nat) : Prop :=
  ∀ m m', Relation.ReflTransGen (AdaptiveCall bufSize) n m → AdaptiveCall bufSize m m' → m' < m

/-- The body calls itself on ranges of these lengths only. -/
theorem stableSortAdaptiveBody_congr {t : RangeTraits} {k fuel : Nat}
    {again again' : List α → Exec (List α)} {l : List α}
    (hlen : ∀ l r, again l = .ok r → r.length = l.length)
    (hagree : ∀ m : List α, AdaptiveCall k l.length m.length → again m = again' m) :
    stableSortAdaptiveBody pred proj t k fuel again l =
      stableSortAdaptiveBody pred proj t k fuel again' l := by
  unfold stableSortAdaptiveBody
  dsimp only
  by_cases hbig : k < (l.length + 1) / 2
  · have hfirst : onRange l 0 ((l.length + 1) / 2) again =
        onRange l 0 ((l.length + 1) / 2) again' := by
      apply onRange_congr
      apply hagree
      refine ⟨hbig, .inl ?_⟩
      rw [List.length_drop, List.length_take]
      omega
    rw [if_pos hbig, if_pos hbig, ← hfirst]
    cases hrun : onRange l 0 ((l.length + 1) / 2) again with
    | error e => rfl
    | ok r =>
      have hrlen := onRange_length hlen hrun
      have hsecond : onRange r ((l.length + 1) / 2) r.length again =
          onRange r ((l.length + 1) / 2) r.length again' := by
        apply onRange_congr
        apply hagree
        refine ⟨hbig, .inr ?_⟩
        rw [List.length_drop, List.length_take]
        omega
      rw [exec_bind_ok, exec_bind_ok, hsecond]
  · rw [if_neg hbig, if_neg hbig]

/-- With room for an element both halves are shorter than the whole. -/
theorem callsShrink_of_pos {k : Nat} (hk : 0 < k) (n : Nat) : CallsShrink k n := by
  intro m m' _ hcall
  obtain ⟨hbig, rfl | rfl⟩ := hcall <;> omega

/-- Without room every range is halved down to one element, and that one called on again. -/
theorem reaches_one {n : Nat} (hn : 0 < n) : Relation.ReflTransGen (AdaptiveCall 0) n 1 := by
  induction n using Nat.strongRecOn with
  | _ n ih =>
    by_cases hone : n = 1
    · rw [hone]
    · have hcall : AdaptiveCall 0 n ((n + 1) / 2) := ⟨by omega, .inl rfl⟩
      exact .head hcall (ih _ (by omega) (by omega))

theorem not_callsShrink_zero {n : Nat} (hn : 0 < n) : ¬ CallsShrink 0 n := by
  intro hshrink
  have hcall : AdaptiveCall 0 1 1 := ⟨by decide, .inl rfl⟩
  have := hshrink 1 1 (reaches_one hn) hcall
  omega

/-- Without room the first half of a range that is not empty is not empty. -/
theorem stableSortAdaptive_diverges {t : RangeTraits} {l : List α} (hl : l ≠ []) :
    Diverges fun fuel => stableSortAdaptive pred proj t 0 fuel l := by
  intro fuel
  change stableSortAdaptive pred proj t 0 fuel l = _
  induction fuel generalizing l with
  | zero => rfl
  | succ fuel ih =>
    have hpos := List.length_pos_of_ne_nil hl
    obtain ⟨a, b, hl', ha⟩ := exists_cut (show (l.length + 1) / 2 ≤ l.length by omega)
    subst hl'
    have hne : a ≠ [] := List.ne_nil_of_length_pos (by omega)
    have hfirst : onRange (a ++ b) 0 a.length (stableSortAdaptive pred proj t 0 fuel) =
        .error .fuel :=
      onRange_error (p := []) rfl (Nat.zero_add _).symm (ih hne)
    rw [stableSortAdaptive, stableSortAdaptiveBody, ← ha]
    dsimp only
    rw [if_pos (by omega), hfirst, exec_bind_error]

theorem stableSort_diverges {t : RangeTraits} {l : List α} {getBuffer : Nat → TemporaryBuffer}
    (hlong : 256 < l.length) (hbuf : getBuffer l.length = ⟨true, 0⟩) :
    Diverges fun fuel => stableSort pred proj t getBuffer fuel l := by
  intro fuel
  have hne : l ≠ [] := List.ne_nil_of_length_pos (by omega)
  have hrun : stableSortAdaptive pred proj t 0 fuel l = .error .fuel :=
    stableSortAdaptive_diverges hne fuel
  simp only [stableSort, gt_iff_lt, if_pos hlong, hbuf, Bool.true_eq_false, if_false, hrun,
    exec_bind_error]

/-- `stable_sort` with the buffer that `get_temporary_buffer` reports returns, every call
of `stable_sort_adaptive` being on a shorter range, unless the range is longer than 256
and the first size the allocator accepts is that of one element. -/
theorem stableSort_terminates_iff (h : StrictWeakOrder pred) (proj : α → κ) (t : RangeTraits)
    (l : List α) (alloc : Nat → Bool) (sizeofT : Nat) :
    ((∃ r, Returns (fun fuel =>
        stableSort pred proj t (getTemporaryBuffer alloc sizeofT) fuel l) r) ∧
      (256 < l.length → (getTemporaryBuffer alloc sizeofT l.length).first = true →
        CallsShrink (getTemporaryBuffer alloc sizeofT l.length).second l.length)) ↔
      (l.length ≤ 256 ∨ accepted alloc sizeofT l.length ≠ some 1) := by
  constructor
  · rintro ⟨⟨r, hr⟩, _⟩
    by_contra hcond
    rw [not_or, not_le, ne_eq, not_not] at hcond
    obtain ⟨hlong, hacc⟩ := hcond
    have hbuf := getTemporaryBuffer_of_accepted_one hacc
    exact (stableSort_diverges hlong hbuf).not_returns r hr
  · intro hcond
    rw [← getTemporaryBuffer_usable_iff] at hcond
    obtain ⟨r, _, hinplace, hadaptive⟩ := stableSort_paths h proj t l
    refine ⟨⟨_, stableSort_returns hinplace hadaptive hcond⟩, fun hlong hfirst => ?_⟩
    have husable := hcond.resolve_left (by omega)
    exact callsShrink_of_pos (husable hfirst) l.length

/-- An allocator that has room for one `int` only. -/
theorem stableSort_terminates_iff_ints :
    ((∃ r, Returns (fun fuel => stableSort (fun a b : Nat => decide (a < b)) id
        ⟨.randomAccess, true, true⟩ (getTemporaryBuffer (fun bytes => bytes == 4) 4) fuel
        [2, 1]) r) ∧
      (256 < 2 → (getTemporaryBuffer (fun bytes => bytes == 4) 4 2).first = true →
        CallsShrink (getTemporaryBuffer (fun bytes => bytes == 4) 4 2).second 2)) ↔
      (2 ≤ 256 ∨ accepted (fun bytes => bytes == 4) 4 2 ≠ some 1) :=
  stableSort_terminates_iff (.of_linearOrder Nat) id ⟨.randomAccess, true, true⟩ [2, 1]
    (fun bytes => bytes == 4) 4

/-- 257 elements, and the allocator accepts the last request only. -/
theorem stableSort_endless :
    (¬ ∃ r, Returns (fun fuel => stableSort (fun a b : Nat => decide (a < b)) id
        ⟨.randomAccess, true, true⟩ (getTemporaryBuffer (fun bytes => bytes == 4) 4) fuel
        (List.replicate 257 0)) r) ∧
      ¬ CallsShrink (getTemporaryBuffer (fun bytes => bytes == 4) 4 257).second 257 := by
  have hacc : accepted (fun bytes => bytes == 4) 4 257 = some 1 := by
    simp [accepted, requests, ptrdiffMax]
  have hbuf := getTemporaryBuffer_of_accepted_one hacc
  constructor
  · rintro ⟨r, hr⟩
    have hlen : (List.replicate 257 0).length = 257 := List.length_replicate
    exact (stableSort_diverges (by rw [hlen]; decide) (by rw [hlen]; exact hbuf)).not_returns r hr
  · rw [hbuf]
    exact not_callsShrink_zero (by decide)

end EARanges.Algorithm
