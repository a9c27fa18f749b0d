import EARanges.Support.RangeModel

/-!
# Iterator operations on any range

iterator/operations.hpp and range/operations.hpp: `advance`, `next`, `prev`, `distance` and
`distance_compare` choose their algorithm by what the iterators of the range offer. Each has
one answer in terms of positions, whatever the choice. The bounded `advance` is given for
counts that are not negative; for these the C++17 implementation and the older one agree.
-/
namespace EARanges.Adaptor
open EARanges.Support

variable {β : Type} (R : RangeModel β)

/-- `advance(it, n)`. -/
def advanceN (n : Int) (it : R.Iter) : Effect R.State R.Iter :=
  match R.jumpHook with
  | some hook => hook n it
  | none =>
    if R.caps.randomAccess then R.advance n it
    else if R.caps.bidirectional && decide (n < 0) then Effect.repeatStep R.prev (-n).toNat it
    else do
      Effect.require (0 ≤ n)
      Effect.repeatStep R.next n.toNat it

/-- `advance(it, last)`. -/
def advanceToEnd (fuel : Nat) (last : R.Sent) (it : R.Iter) : Effect R.State R.Iter :=
  if R.caps.common then .ofExec (R.asIter last)
  else if R.caps.sizedSentinel then do
    let d ← R.distanceToEnd it last
    Effect.require (0 ≤ d)
    advanceN R d it
  else Effect.whileLoop (R.notReached last) R.next fuel it

/-- `advance(it, n, last)`, with what is left of `n`. -/
def advanceEnd (fuel n : Nat) (last : R.Sent) (it : R.Iter) : Effect R.State (R.Iter × Int) :=
  if R.caps.sizedSentinel then
    if n = 0 then pure (it, 0)
    else do
      let d ← R.distanceToEnd it last
      Effect.require (0 ≤ d)
      if d ≤ n then
        let it ← advanceToEnd R fuel last it
        pure (it, n - d)
      else
        let it ← advanceN R n it
        pure (it, 0)
  else do
    let (it, rest) ← Effect.boundedLoop (R.notReached last) R.next n it
    pure (it, (rest : Int))

/-- `next(it, n, last)`. -/
def nextEnd (fuel n : Nat) (last : R.Sent) (it : R.Iter) : Effect R.State R.Iter := do
  let (it, _) ← advanceEnd R fuel n last it
  pure it

/-- `for(; first != last; ++first) ++d;`. -/
def enumerateLoop (last : R.Sent) : Nat → Int → R.Iter → Effect R.State (Int × R.Iter)
  | 0, _, _ => .ofExec (.error .fuel)
  | fuel + 1, d, first => do
    if ← R.reached first last then pure (d, first)
    else
      let first ← R.next first
      enumerateLoop last fuel (d + 1) first

/-- `iter_enumerate(first, last)`. -/
def iterEnumerate (fuel : Nat) (first : R.Iter) (last : R.Sent) :
    Effect R.State (Int × R.Iter) :=
  if R.caps.sizedSentinel then do
    let n ← R.distanceToEnd first last
    Effect.require (R.caps.common = true ∨ 0 ≤ n)
    let it ← advanceToEnd R fuel last first
    pure (n, it)
  else if R.caps.sizedIter then do
    let it ← advanceToEnd R fuel last first
    let n ← R.distanceTo first it
    Effect.require (R.caps.common = true ∨ 0 ≤ n)
    pure (n, it)
  else enumerateLoop R last fuel 0 first

/-- `iter_distance(first, last)`. -/
def iterDistance (fuel : Nat) (first : R.Iter) (last : R.Sent) : Effect R.State Int :=
  if R.caps.sizedSentinel then do
    let n ← R.distanceToEnd first last
    Effect.require (R.caps.common = true ∨ 0 ≤ n)
    pure n
  else do
    let (n, _) ← iterEnumerate R fuel first last
    pure n

/-- `enumerate(rng)`. -/
def enumerate (fuel : Nat) : Effect R.State (Int × R.Iter) :=
  if R.caps.common && R.caps.sized then do
    let n ← R.size
    let it ← R.endIter
    pure ((n : Int), it)
  else do
    let first ← R.begin
    let last ← R.end_
    iterEnumerate R fuel first last

/-- `distance(rng)`. -/
def distance (fuel : Nat) : Effect R.State Int :=
  if R.caps.sized then do
    let n ← R.size
    pure (n : Int)
  else do
    let (n, _) ← enumerate R fuel
    pure n

/-- `for(; n > 0; --n, ++first) if(first == last) return -1;`. -/
def compareLoop (last : R.Sent) : Nat → R.Iter → Effect R.State Int
  | 0, first => do
    let b ← R.reached first last
    pure (if b then 0 else 1)
  | n + 1, first => do
    if ← R.reached first last then pure (-1)
    else
      let first ← R.next first
      compareLoop last n first

/-- `iter_distance_compare(first, last, n)`. -/
def iterDistanceCompare (first : R.Iter) (last : R.Sent) (n : Int) : Effect R.State Int :=
  if R.caps.sizedSentinel then do
    let dist ← R.distanceToEnd first last
    pure (if n < dist then 1 else if dist < n then -1 else 0)
  else if n < 0 then pure 1
  else compareLoop R last n.toNat first

/-- `distance_compare(rng, n)`. -/
def distanceCompare (fuel : Nat) (n : Int) : Effect R.State Int :=
  if R.caps.sized then do
    let dist ← distance R fuel
    pure (if n < dist then 1 else if dist < n then -1 else 0)
  else do
    let first ← R.begin
    let last ← R.end_
    iterDistanceCompare R first last n

variable {R} {xs : List β} {Inv : Phase → R.State → Prop} {At : Nat → R.Iter → Prop}
  {AtEnd : R.Sent → Prop}

/-- A step when `k + 1` are left to the position `j`. -/
theorem next_of_left (h : Presents R xs Inv At AtEnd) {j k : Nat} {c : R.Iter}
    (hj : j ≤ xs.length) (hc : At (j - (k + 1)) c ∧ k + 1 ≤ j) :
    Gives (Inv .live) (R.next c) fun c' => At (j - k) c' ∧ k ≤ j := by
  have hle := hc.2
  have hnext := h.next hc.1 (by omega)
  rw [show j - (k + 1) + 1 = j - k by omega] at hnext
  exact hnext.mono fun c' hc' => ⟨hc', by omega⟩

theorem advanceN_gives (h : Presents R xs Inv At AtEnd) {i j : Nat} {n : Int} {it : R.Iter}
    (hit : At i it) (hn : (i : Int) + n = j) (hj : j ≤ xs.length)
    (hback : 0 ≤ n ∨ R.caps.bidirectional = true) :
    Gives (Inv .live) (advanceN R n it) (At j) := by
  unfold advanceN
  split
  next hook heq => exact h.jumpHook heq hit hn hj hback
  next =>
    split
    next hrandom => exact h.advance hrandom hit hn hj
    next =>
      split
      next hneg =>
        rw [Bool.and_eq_true, decide_eq_true_eq] at hneg
        apply Gives.repeatStep At fun k c hc => h.prev hneg.1 hc
        rwa [show j + (-n).toNat = i by omega]
      next hpos =>
        have hnonneg : 0 ≤ n := by
          rcases hback with hle | hbidir
          · exact hle
          · simp only [hbidir, Bool.true_and, decide_eq_true_eq] at hpos
            omega
        apply (Gives.require hnonneg).bind
        intro _ _
        -- at the position `j - k` there are `k` steps to go
        have hsteps := Gives.repeatStep (fun k c => At (j - k) c ∧ k ≤ j)
          (fun k c hc => next_of_left h hj hc) (k := 0) (n := n.toNat) (c := it)
          ⟨by rwa [show j - (0 + n.toNat) = i by omega], by omega⟩
        exact hsteps.mono fun c hc => hc.1

/-- `k` steps are left to the end. -/
def StepsLeft {ι : Type} (xs : List β) (At : Nat → ι → Prop) (k : Nat) (c : ι) : Prop :=
  At (xs.length - k) c ∧ k ≤ xs.length

theorem notReached_left (h : Presents R xs Inv At AtEnd) {last : R.Sent} (hlast : AtEnd last)
    {k : Nat} {c : R.Iter} (hc : StepsLeft xs At k c) :
    Gives (Inv .live) (R.notReached last c) fun b => b = decide (k ≠ 0) := by
  have hle := hc.2
  apply (h.notReached hc.1 hlast).mono
  rintro b rfl
  exact decide_eq_decide.mpr (by omega)

theorem next_left (h : Presents R xs Inv At AtEnd) {k : Nat} {c : R.Iter}
    (hc : StepsLeft xs At (k + 1) c) : Gives (Inv .live) (R.next c) (StepsLeft xs At k) :=
  next_of_left h (Nat.le_refl _) hc

theorem stepsLeft_of_at (h : Presents R xs Inv At AtEnd) {i : Nat} {it : R.Iter}
    (hit : At i it) : StepsLeft xs At (xs.length - i) it := by
  have hle := h.le hit
  refine ⟨?_, Nat.sub_le _ _⟩
  rwa [Nat.sub_sub_self hle]

theorem advanceToEnd_gives (h : Presents R xs Inv At AtEnd) {fuel i : Nat} {last : R.Sent}
    {it : R.Iter} (hit : At i it) (hlast : AtEnd last) (hfuel : xs.length < fuel) :
    Gives (Inv .live) (advanceToEnd R fuel last it) (At xs.length) := by
  have hle := h.le hit
  unfold advanceToEnd
  split
  next hcommon =>
    obtain ⟨c, hc, hat⟩ := h.asIter hcommon hlast
    exact .ofExec hc hat
  next =>
    split
    next hsized =>
      apply (h.distanceToEnd hsized hit hlast).bind
      rintro d rfl
      apply (Gives.require (by omega)).bind
      intro _ _
      exact advanceN_gives h hit (by omega) (Nat.le_refl _) (.inl (by omega))
    next =>
      have hloop := Gives.whileLoop (StepsLeft xs At) (fun k c => notReached_left h hlast)
        (fun k c => next_left h) (stepsLeft_of_at h hit)
        (Nat.lt_of_le_of_lt (Nat.sub_le _ _) hfuel)
      exact hloop.mono fun c hc => hc.1

/-- The iterator that the bounded `advance` reaches is the nearer of the target and the end. -/
theorem advanceEnd_gives (h : Presents R xs Inv At AtEnd) {fuel i n : Nat} {last : R.Sent}
    {it : R.Iter} (hit : At i it) (hlast : AtEnd last) (hfuel : xs.length < fuel) :
    Gives (Inv .live) (advanceEnd R fuel n last it) fun r =>
      At (min (i + n) xs.length) r.1 ∧ r.2 = (i + n - min (i + n) xs.length : Nat) := by
  have hle := h.le hit
  unfold advanceEnd
  split
  next hsized =>
    split
    next hn =>
      refine .pure ⟨?_, by omega⟩
      rwa [hn, Nat.add_zero, Nat.min_eq_left hle]
    next hn =>
      apply (h.distanceToEnd hsized hit hlast).bind
      rintro d rfl
      apply (Gives.require (by omega)).bind
      intro _ _
      split
      next hfar =>
        apply (advanceToEnd_gives h hit hlast hfuel).bind
        intro c hc
        refine .pure ⟨?_, by omega⟩
        rwa [Nat.min_eq_right (by omega)]
      next hnear =>
        have hadvance := advanceN_gives h (n := (n : Int)) (j := i + n) hit (by omega) (by omega)
          (.inl (by omega))
        apply hadvance.bind
        intro c hc
        refine .pure ⟨?_, by omega⟩
        rwa [Nat.min_eq_left (by omega)]
  next =>
    have hloop := Gives.boundedLoop (StepsLeft xs At) (fun k c => notReached_left h hlast)
      (fun k c => next_left h) (n := n) (stepsLeft_of_at h hit)
    apply hloop.bind
    rintro ⟨c, rest⟩ ⟨⟨hc, _⟩, rfl⟩
    rw [show xs.length - (xs.length - i - n) = min (i + n) xs.length by omega] at hc
    exact .pure ⟨hc, by omega⟩

theorem nextEnd_gives (h : Presents R xs Inv At AtEnd) {fuel i n : Nat} {last : R.Sent}
    {it : R.Iter} (hit : At i it) (hlast : AtEnd last) (hfuel : xs.length < fuel) :
    Gives (Inv .live) (nextEnd R fuel n last it) (At (min (i + n) xs.length)) := by
  apply (advanceEnd_gives h hit hlast hfuel).bind
  rintro ⟨c, rest⟩ ⟨hc, _⟩
  exact .pure hc

theorem enumerateLoop_gives (h : Presents R xs Inv At AtEnd) {fuel i : Nat} {d : Int}
    {last : R.Sent} {it : R.Iter} (hit : At i it) (hlast : AtEnd last)
    (hfuel : xs.length - i < fuel) :
    Gives (Inv .live) (enumerateLoop R last fuel d it) fun r =>
      r.1 = d + (xs.length - i) ∧ At xs.length r.2 := by
  induction fuel generalizing i d it with
  | zero => omega
  | succ fuel ih =>
    have hle := h.le hit
    apply (h.reached hit hlast).bind
    rintro b rfl
    by_cases hend : i = xs.length
    · subst hend
      rw [decide_eq_true rfl, if_pos rfl]
      exact .pure ⟨by omega, hit⟩
    · rw [decide_eq_false hend, if_neg Bool.false_ne_true]
      apply (h.next hit (by omega)).bind
      intro c hc
      apply (ih hc (by omega)).mono
      rintro r ⟨hr, hat⟩
      exact ⟨by omega, hat⟩

theorem iterEnumerate_gives (h : Presents R xs Inv At AtEnd) {fuel i : Nat} {last : R.Sent}
    {it : R.Iter} (hit : At i it) (hlast : AtEnd last) (hfuel : xs.length < fuel) :
    Gives (Inv .live) (iterEnumerate R fuel it last) fun r =>
      r.1 = (xs.length : Int) - i ∧ At xs.length r.2 := by
  have hle := h.le hit
  unfold iterEnumerate
  split
  next hsized =>
    apply (h.distanceToEnd hsized hit hlast).bind
    rintro n rfl
    apply (Gives.require (.inr (by omega))).bind
    intro _ _
    apply (advanceToEnd_gives h hit hlast hfuel).bind
    intro c hc
    exact .pure ⟨rfl, hc⟩
  next =>
    split
    next hsized =>
      apply (advanceToEnd_gives h hit hlast hfuel).bind
      intro c hc
      apply (h.distanceTo hsized hit hc).bind
      rintro n rfl
      apply (Gives.require (.inr (by omega))).bind
      intro _ _
      exact .pure ⟨rfl, hc⟩
    next =>
      apply (enumerateLoop_gives h hit hlast (Nat.lt_of_le_of_lt (Nat.sub_le _ _) hfuel)).mono
      rintro r ⟨hr, hat⟩
      exact ⟨by omega, hat⟩

theorem iterDistance_gives (h : Presents R xs Inv At AtEnd) {fuel i : Nat} {last : R.Sent}
    {it : R.Iter} (hit : At i it) (hlast : AtEnd last) (hfuel : xs.length < fuel) :
    Gives (Inv .live) (iterDistance R fuel it last) fun n => n = (xs.length : Int) - i := by
  have hle := h.le hit
  unfold iterDistance
  split
  next hsized =>
    apply (h.distanceToEnd hsized hit hlast).bind
    rintro n rfl
    apply (Gives.require (.inr (by omega))).bind
    intro _ _
    exact .pure rfl
  next =>
    apply (iterEnumerate_gives h hit hlast hfuel).bind
    rintro ⟨n, c⟩ ⟨rfl, _⟩
    exact .pure rfl

theorem enumerate_gives (h : Presents R xs Inv At AtEnd) {fuel : Nat}
    (hfuel : xs.length < fuel) (phase : Phase) :
    Gives (Inv phase) (enumerate R fuel) fun r => r.1 = xs.length ∧ At xs.length r.2 := by
  unfold enumerate
  split
  next hcaps =>
    rw [Bool.and_eq_true] at hcaps
    apply (h.size hcaps.2 phase).bind
    rintro n rfl
    apply (h.endIter_gives hcaps.1 phase).bind
    intro c hc
    exact Gives.pure ⟨rfl, hc⟩
  next =>
    apply h.gives_of_yields
    apply h.begin.bind
    intro c hc
    apply (h.end_ .live).bind
    intro e he
    apply (iterEnumerate_gives h hc he hfuel).mono
    rintro r ⟨hr, hat⟩
    exact ⟨by omega, hat⟩

theorem distance_gives (h : Presents R xs Inv At AtEnd) {fuel : Nat} (hfuel : xs.length < fuel)
    (phase : Phase) : Gives (Inv phase) (distance R fuel) fun n => n = xs.length := by
  unfold distance
  split
  next hsized =>
    apply (h.size hsized phase).bind
    rintro n rfl
    exact .pure rfl
  next =>
    apply (enumerate_gives h hfuel phase).bind
    rintro ⟨n, c⟩ ⟨hn, _⟩
    exact Gives.pure hn

/-- The sign of a comparison. -/
def sign (a b : Int) : Int := if b < a then 1 else if a < b then -1 else 0

theorem compareLoop_gives (h : Presents R xs Inv At AtEnd) {i n : Nat} {last : R.Sent}
    {it : R.Iter} (hit : At i it) (hlast : AtEnd last) :
    Gives (Inv .live) (compareLoop R last n it) fun r => r = sign ((xs.length : Int) - i) n := by
  induction n generalizing i it with
  | zero =>
    have hle := h.le hit
    apply (h.reached hit hlast).bind
    rintro b rfl
    apply Gives.pure
    unfold sign
    split <;> rename_i hend <;> rw [decide_eq_true_eq] at hend
    · rw [if_neg (by omega), if_neg (by omega)]
    · rw [if_pos (by omega)]
  | succ n ih =>
    have hle := h.le hit
    apply (h.reached hit hlast).bind
    rintro b rfl
    by_cases hend : i = xs.length
    · rw [decide_eq_true hend, if_pos rfl]
      apply Gives.pure
      unfold sign
      rw [if_neg (by omega), if_pos (by omega)]
    · rw [decide_eq_false hend, if_neg Bool.false_ne_true]
      apply (h.next hit (by omega)).bind
      intro c hc
      apply (ih hc).mono
      rintro r rfl
      simp only [sign]
      congr 1
      · exact propext (by omega)
      · congr 1
        exact propext (by omega)

theorem iterDistanceCompare_gives (h : Presents R xs Inv At AtEnd) {i : Nat} {n : Int}
    {last : R.Sent} {it : R.Iter} (hit : At i it) (hlast : AtEnd last) :
    Gives (Inv .live) (iterDistanceCompare R it last n) fun r =>
      r = sign ((xs.length : Int) - i) n := by
  have hle := h.le hit
  unfold iterDistanceCompare
  split
  next hsized =>
    apply (h.distanceToEnd hsized hit hlast).bind
    rintro d rfl
    exact .pure rfl
  next =>
    split
    next hneg =>
      apply Gives.pure
      rw [sign, if_pos (by omega)]
    next hpos =>
      have hloop := compareLoop_gives h hit hlast (n := n.toNat)
      rwa [Int.toNat_of_nonneg (by omega)] at hloop

theorem distanceCompare_gives (h : Presents R xs Inv At AtEnd) {fuel : Nat} {n : Int}
    (hfuel : xs.length < fuel) (phase : Phase) :
    Gives (Inv phase) (distanceCompare R fuel n) fun r => r = sign xs.length n := by
  unfold distanceCompare
  split
  next =>
    apply (distance_gives h hfuel phase).bind
    rintro d rfl
    exact .pure rfl
  next =>
    apply h.gives_of_yields
    apply h.begin.bind
    intro c hc
    apply (h.end_ .live).bind
    intro e he
    apply (iterDistanceCompare_gives h hc he).mono
    rintro r rfl
    rw [Int.natCast_zero, Int.sub_zero]

end EARanges.Adaptor
