import EARanges.Adaptor.Operations
import EARanges.View.RemoveIf

/-!
# `find_if_not` on any range

The loop that several views begin with: it stops at the end, or at the first element that fails
a test.
-/
namespace EARanges.Adaptor
open EARanges.Support EARanges.View

variable {α : Type}

/-- `it != last && test(it)`. -/
def notLastAnd (R : RangeModel α) (test : R.Iter → Effect R.State Bool) (last : R.Sent)
    (it : R.Iter) : Effect R.State Bool := do
  if ← R.reached it last then pure false
  else test it

/-- `while(it != last && test(it)) ++it`. -/
def skipWhile (R : RangeModel α) (fuel : Nat) (test : R.Iter → Effect R.State Bool)
    (last : R.Sent) (it : R.Iter) : Effect R.State R.Iter :=
  Effect.whileLoop (notLastAnd R test last) R.next fuel it

/-- `pred(*it)`. -/
def testAt (R : RangeModel α) (pred : α → Bool) (it : R.Iter) : Effect R.State Bool := do
  let x ← R.read it
  pure (pred x)

section
variable {R : RangeModel α} {xs : List α} {Inv : Phase → R.State → Prop}
  {At : Nat → R.Iter → Prop} {AtEnd : R.Sent → Prop} {fuel : Nat} {pred : α → Bool}

theorem testAt_gives (h : Presents R xs Inv At AtEnd) (pred : α → Bool) {k : Nat} {c : R.Iter}
    (hc : At k c) (hk : k < xs.length) :
    Gives (Inv .live) (testAt R pred c) fun b => b = pred xs[k] := by
  apply (h.read hc (List.getElem?_eq_getElem hk)).bind
  rintro x rfl
  exact .pure rfl

/-- A test that fails on the positions to be kept fails first on the one sought. -/
theorem notLastAnd_gives (h : Presents R xs Inv At AtEnd) {keep : Nat → Bool} {k s t : Nat}
    {test : R.Iter → Effect R.State Bool} {last : R.Sent} {c : R.Iter}
    (htest : ∀ k c, At k c → k < xs.length → Gives (Inv .live) (test c) fun b => b = !keep k)
    (hc : At k c) (hlast : AtEnd last) (ht : FirstFrom keep xs s t) (hsk : s ≤ k) (hkt : k ≤ t) :
    Gives (Inv .live) (notLastAnd R test last c) fun b => b = decide (k ≠ t) := by
  have hle := h.le hc
  have hiff := ht.end_or_keep_iff hsk hkt
  apply (h.reached hc hlast).bind
  rintro b rfl
  by_cases hend : k = xs.length
  · rw [decide_eq_true hend, if_pos rfl]
    exact .pure (decide_eq_false fun hne => hne (hiff.mp (.inl hend))).symm
  · rw [decide_eq_false hend, if_neg Bool.false_ne_true]
    apply (htest k c hc (by omega)).mono
    rintro b rfl
    rw [or_iff_right hend, ← decide_eq_true_iff (p := k = t)] at hiff
    rw [decide_not, Bool.eq_iff_iff.mpr hiff]

/-- What is found is the first position to be kept. -/
theorem skipWhile_gives (h : Presents R xs Inv At AtEnd) {keep : Nat → Bool} {fuel s t : Nat}
    {test : R.Iter → Effect R.State Bool} {last : R.Sent} {it : R.Iter}
    (htest : ∀ k c, At k c → k < xs.length → Gives (Inv .live) (test c) fun b => b = !keep k)
    (hit : At s it) (hlast : AtEnd last) (hfuel : xs.length < fuel)
    (ht : FirstFrom keep xs s t) : Gives (Inv .live) (skipWhile R fuel test last it) (At t) := by
  have hst := ht.le
  have hle := ht.le_length
  have hloop := Gives.whileLoop (fun k c => At (t - k) c ∧ k ≤ t - s)
    (fun k c hc => (notLastAnd_gives h htest hc.1 hlast ht (by omega) (Nat.sub_le t k)).mono
      fun b hb => hb.trans (decide_eq_decide.mpr (by omega)))
    (fun k c hc => (next_of_left h hle ⟨hc.1, by omega⟩).mono
      fun c' hc' => ⟨hc'.1, by omega⟩)
    (k := t - s) (c := it) ⟨by rwa [Nat.sub_sub_self hst], Nat.le_refl _⟩
    (show t - s < fuel by omega)
  exact hloop.mono fun c hc => hc.1

/-- The positions that `pred` does not remove. -/
abbrev unremoved (xs : List α) (pred : α → Bool) : Nat → Bool :=
  RemoveIfView.keeps ⟨xs, pred⟩

theorem testAt_unremoved (h : Presents R xs Inv At AtEnd) {k : Nat} {c : R.Iter} (hc : At k c)
    (hk : k < xs.length) :
    Gives (Inv .live) (testAt R pred c) fun b => b = !unremoved xs pred k := by
  apply (testAt_gives h pred hc hk).mono
  rintro b rfl
  rw [unremoved, RemoveIfView.keeps_of_get (List.getElem?_eq_getElem hk), Bool.not_not]

/-! ## The first element that fails -/

theorem firstFrom_takeWhile (xs : List α) (pred : α → Bool) :
    FirstFrom (unremoved xs pred) xs 0 (xs.takeWhile pred).length := by
  induction xs with
  | nil => exact .refl (.inl rfl)
  | cons x xs ih =>
    have hhead : unremoved (x :: xs) pred 0 = !pred x := rfl
    rw [List.takeWhile_cons]
    cases hpred : pred x with
    | false =>
      rw [hpred] at hhead
      exact .refl (.inr ⟨Nat.succ_pos _, hhead⟩)
    | true =>
      rw [hpred] at hhead
      refine ⟨Nat.zero_le _, ?_, fun k _ hk => ?_⟩
      · exact ih.stands.imp (congrArg (· + 1)) fun h => ⟨Nat.succ_lt_succ h.1, h.2⟩
      · cases k with
        | zero => exact hhead
        | succ k => exact ih.between k (Nat.zero_le k) (Nat.lt_of_succ_lt_succ hk)

theorem drop_length_takeWhile (xs : List α) (pred : α → Bool) :
    xs.drop (xs.takeWhile pred).length = xs.dropWhile pred := by
  calc xs.drop (xs.takeWhile pred).length
      = (xs.takeWhile pred ++ xs.dropWhile pred).drop (xs.takeWhile pred).length := by
        rw [List.takeWhile_append_dropWhile]
    _ = xs.dropWhile pred := List.drop_left

/-- `find_if_not(rng, pred)`. -/
def findIfNot (R : RangeModel α) (fuel : Nat) (pred : α → Bool) : Effect R.State R.Iter := do
  let first ← R.begin
  let last ← R.end_
  skipWhile R fuel (testAt R pred) last first

theorem findIfNot_yields (h : Presents R xs Inv At AtEnd) (hfuel : xs.length < fuel)
    (pred : α → Bool) :
    Yields (Inv .idle) (findIfNot R fuel pred) (Inv .live) (At (xs.takeWhile pred).length) := by
  apply h.begin.bind
  intro c hc
  apply (h.end_ .live).bind
  intro e he
  exact skipWhile_gives h (fun k c => testAt_unremoved h) hc he hfuel
    (firstFrom_takeWhile xs pred)

end

end EARanges.Adaptor
