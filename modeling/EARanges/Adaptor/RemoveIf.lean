import EARanges.Adaptor.KeptView

/-!
# `remove_if_view` of any range

view/remove_if.hpp over a base of any kind. The memoised `begin` is part of the view; an
iterator that goes back relies on it to be there.
-/
namespace EARanges.Adaptor
open EARanges.Support EARanges.View

variable {α : Type}

section
variable (R : RangeModel α) (fuel : Nat) (pred : α → Bool)

/-- `satisfy_forward`. -/
def satisfyForward (it : R.Iter) : Effect R.State R.Iter := do
  let last ← R.end_
  skipWhile R fuel (testAt R pred) last it

/-- `do { EARANGES_ASSERT(it != first); --it; } while(pred(*it))`. -/
def satisfyReverseLoop (first : R.Iter) : Nat → R.Iter → Effect R.State R.Iter
  | 0, _ => .ofExec (.error .fuel)
  | fuel + 1, it => do
    if ← R.equal it first then Effect.fault
    else
      let it ← R.prev it
      if ← testAt R pred it then satisfyReverseLoop first fuel it
      else pure it

/-- `satisfy_reverse`, which asserts that `begin` has been memoised. -/
def satisfyReverse (it : R.Iter) : Effect (R.State × Option R.Iter) R.Iter := do
  let first ← Effect.memoised
  .onFst (satisfyReverseLoop R pred first fuel it)

/-- `cache_begin`. -/
def cacheBegin : Effect (R.State × Option R.Iter) R.Iter :=
  Effect.memo do
    let it ← R.begin
    satisfyForward R fuel pred it

/-- `adaptor::next`. -/
def removeIfNext (it : R.Iter) : Effect R.State R.Iter := do
  let last ← R.end_
  let atEnd ← R.reached it last
  Effect.require (atEnd = false)
  let it ← R.next it
  satisfyForward R fuel pred it

def removeIfEnd : Effect (R.State × Option R.Iter) R.Sent :=
  if R.caps.common && R.caps.bidirectional then do
    let _ ← cacheBegin R fuel pred
    .onFst R.end_
  else .onFst R.end_

def removeIf : RangeModel α :=
  keptView R none (cacheBegin R fuel pred) (removeIfEnd R fuel pred)
    (fun it => .onFst (removeIfNext R fuel pred it)) (satisfyReverse R fuel pred)

end

section
variable {R : RangeModel α} {xs : List α} {Inv : Phase → R.State → Prop}
  {At : Nat → R.Iter → Prop} {AtEnd : R.Sent → Prop} {fuel : Nat} {pred : α → Bool}

theorem satisfyForward_gives (h : Presents R xs Inv At AtEnd) (hfuel : xs.length < fuel)
    {s t : Nat} {it : R.Iter} (hit : At s it) (ht : FirstFrom (unremoved xs pred) xs s t) :
    Gives (Inv .live) (satisfyForward R fuel pred it) (At t) := by
  apply (h.end_ .live).bind
  intro e he
  exact skipWhile_gives h (fun k c => testAt_unremoved h) hit he hfuel ht

theorem satisfyReverseLoop_gives (h : Presents R xs Inv At AtEnd)
    (hbidir : R.caps.bidirectional = true) {first s t fuel : Nat} {firstIt it : R.Iter}
    (hfirst : At first firstIt) (hit : At s it) (ht : LastBefore (unremoved xs pred) s t)
    (hle : first ≤ t) (hfuel : s < fuel) :
    Gives (Inv .live) (satisfyReverseLoop R pred firstIt fuel it) (At t) := by
  induction fuel generalizing s it with
  | zero => omega
  | succ fuel ih =>
    have hlt := ht.lt
    obtain ⟨s, rfl⟩ : ∃ n, s = n + 1 := ⟨s - 1, by omega⟩
    have hs := h.le hit
    apply (h.equal hit hfirst).bind
    rintro b rfl
    rw [decide_eq_false (by omega), if_neg Bool.false_ne_true]
    apply (h.prev hbidir hit).bind
    intro c hc
    apply (testAt_unremoved h hc (by omega)).bind
    rintro b rfl
    by_cases heq : t = s
    · subst heq
      rw [ht.keeps]
      exact .pure hc
    · rw [ht.between s (by omega) (Nat.lt_succ_self s)]
      exact ih hc ⟨by omega, ht.keeps, fun k hk hks => ht.between k hk (by omega)⟩ (by omega)

theorem removeIfNext_gives (h : Presents R xs Inv At AtEnd) (hfuel : xs.length < fuel) {s t : Nat}
    {it : R.Iter} (hit : At s it) (hs : s < xs.length)
    (ht : FirstFrom (unremoved xs pred) xs (s + 1) t) :
    Gives (Inv .live) (removeIfNext R fuel pred it) (At t) := by
  apply (h.end_ .live).bind
  intro e he
  apply (h.reached hit he).bind
  rintro b rfl
  apply (Gives.require (decide_eq_false (Nat.ne_of_lt hs))).bind
  intro _ _
  apply (h.next hit hs).bind
  intro c hc
  exact satisfyForward_gives h hfuel hc ht

/-- The iterators of the view are those of one whose `begin` has been memoised. -/
abbrev RemoveIfInv (R : RangeModel α) (xs : List α) (Inv : Phase → R.State → Prop)
    (At : Nat → R.Iter → Prop) (pred : α → Bool) : Phase → R.State × Option R.Iter → Prop :=
  Over Inv (Caching (Inv .idle) (Inv .live) (FirstKept xs (unremoved xs pred) At))
    (Filled (FirstKept xs (unremoved xs pred) At))

theorem cacheBegin_yields (h : Presents R xs Inv At AtEnd) (hfuel : xs.length < fuel) :
    Yields (RemoveIfInv R xs Inv At pred .idle) (cacheBegin R fuel pred)
      (RemoveIfInv R xs Inv At pred .live) (FirstKept xs (unremoved xs pred) At) := by
  have hfirst : Yields (Inv .idle) (R.begin >>= satisfyForward R fuel pred) (Inv .live)
      (FirstKept xs (unremoved xs pred) At) := by
    obtain ⟨t, ht⟩ := exists_firstFrom (unremoved xs pred) (Nat.zero_le xs.length)
    apply h.begin.bind
    intro c hc
    exact (satisfyForward_gives h hfuel hc ht).mono fun c' hc' => ⟨t, ht, hc'⟩
  exact hfirst.memo

theorem removeIf_idle (h : Presents R xs Inv At AtEnd) (s : R.State × Option R.Iter)
    (hs : RemoveIfInv R xs Inv At pred .live s) : RemoveIfInv R xs Inv At pred .idle s :=
  caching_of_both h.idle ⟨hs.1, hs.2.cacheOf⟩

/-- `end` memoises `begin` for the iterators that may go back from it. -/
theorem removeIfEnd_yields (h : Presents R xs Inv At AtEnd) (hfuel : xs.length < fuel)
    (pred : α → Bool) (hcommon : R.caps.common = true) (hbidir : R.caps.bidirectional = true) :
    Yields (RemoveIfInv R xs Inv At pred .idle) (removeIfEnd R fuel pred)
      (RemoveIfInv R xs Inv At pred .live) AtEnd := by
  rw [removeIfEnd, if_pos (Bool.and_eq_true_iff.mpr ⟨hcommon, hbidir⟩)]
  apply (cacheBegin_yields h hfuel).bind
  intro _ _
  exact Gives.over (h.end_ .live)

theorem removeIfEnd_gives (h : Presents R xs Inv At AtEnd) (hfuel : xs.length < fuel)
    (phase : Phase) :
    Gives (RemoveIfInv R xs Inv At pred phase) (removeIfEnd R fuel pred) AtEnd := by
  by_cases hcaps : (R.caps.common && R.caps.bidirectional) = true
  · obtain ⟨hcommon, hbidir⟩ := Bool.and_eq_true_iff.mp hcaps
    have hend := removeIfEnd_yields h hfuel pred hcommon hbidir
    cases phase with
    | idle => exact hend.mono (removeIf_idle h) fun _ he => he
    | live => exact hend.weaken (removeIf_idle h)
  · rw [removeIfEnd, if_neg hcaps]
    cases phase with
    | idle => exact (h.end_ .idle).caching (h.end_ .live) h.idle
    | live => exact Gives.over (h.end_ .live)

theorem removeIfPrev_gives (h : Presents R xs Inv At AtEnd) (hfuel : xs.length < fuel)
    (hbidir : R.caps.bidirectional = true) {i : Nat} {it : R.Iter}
    (hit : Passes xs (unremoved xs pred) At (i + 1) it) :
    Gives (RemoveIfInv R xs Inv At pred .live) (satisfyReverse R fuel pred it)
      (Passes xs (unremoved xs pred) At i) := by
  obtain ⟨s, hs, hat⟩ := hit
  apply Gives.memoised.bind
  rintro first ⟨t, ht, hfirst⟩
  have hlt := hs.first_lt ht
  have hle := hs.le
  have hkeep : unremoved xs pred t = true := by
    rcases ht.stands with hend | ⟨_, hkeep⟩
    · omega
    · exact hkeep
  obtain ⟨u, hu, htu⟩ := exists_lastBefore hkeep hlt
  apply Gives.onFst
  exact (satisfyReverseLoop_gives h hbidir hfirst hat hu htu (by omega)).mono
    fun c hc => ⟨u, hs.prev hu, hc⟩

/-- The view of any range of a list is a range of what the predicate leaves. -/
theorem removeIf_presents (h : Presents R xs Inv At AtEnd) (hfuel : xs.length < fuel)
    (pred : α → Bool) :
    Presents (removeIf R fuel pred) (xs.filter fun x => !pred x) (RemoveIfInv R xs Inv At pred)
      (Passes xs (unremoved xs pred) At) AtEnd := by
  rw [← RemoveIfView.keptAt_eq ⟨xs, pred⟩]
  exact keptView_presents h _ (caching_of_empty h.fresh) (removeIf_idle h)
    (cacheBegin_yields h hfuel) (removeIfEnd_gives h hfuel) (removeIfEnd_yields h hfuel pred)
    (fun hit hs ht => .onFst (removeIfNext_gives h hfuel hit hs ht))
    fun hbidir _ _ hit => removeIfPrev_gives h hfuel hbidir hit

theorem lawful_removeIf (h : Lawful R xs) (hfuel : xs.length < fuel) (pred : α → Bool) :
    Lawful (removeIf R fuel pred) (xs.filter fun x => !pred x) := by
  obtain ⟨Inv, At, AtEnd, h⟩ := h
  exact ⟨_, _, _, removeIf_presents h hfuel pred⟩

end

end EARanges.Adaptor
