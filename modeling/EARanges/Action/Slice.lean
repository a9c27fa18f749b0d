import EARanges.View.Slice

/-!
# `actions::slice`

action/slice.hpp. The container is erased from on both sides of the slice, in an order that
depends on the form of the bounds: what the second erasure counts from is the container that
the first one has left.
-/
namespace EARanges.Action
open EARanges.Support EARanges.Iterator EARanges.View

variable {α : Type}

/-- `ranges::actions::erase(rng, first, last)`. -/
def erase (c : BaseRange α) (first last : Nat) : Exec (BaseRange α) :=
  if first ≤ last ∧ last ≤ c.length then
    .ok { c with list := c.list.take first ++ c.list.drop last }
  else .error .fault

namespace Slice

/-- `next(begin(rng), n)`. -/
def beginPlus (c : BaseRange α) (n : Int) : Exec Nat := do
  let p ← nextBegin c none n
  .ok p.it

/-- `next(begin(rng), end(rng))`. -/
def endIt (c : BaseRange α) : Exec Nat := do
  let p ← c.beginIt none
  advanceToEnd c.traits c.length p.it

/-- `prev(last, n)`. -/
def prevBy (c : BaseRange α) (last : Nat) (n : Int) : Exec Nat := do
  let p ← c.advanceIt ⟨last, none⟩ (-n)
  .ok p.it

/-- `!sized_range<Rng> || n <= distance(rng)`; for `n = -dist` it is written
`0 <= distance(rng) + dist`. -/
def withinSize (c : BaseRange α) (n : Int) : Exec Bool :=
  if c.traits.sized then do
    let d ← c.distance none
    .ok (decide (n ≤ d))
  else .ok true

/-- `actions::slice(rng, from, to)`. -/
def between (c : BaseRange α) (first last : Int) : Exec (BaseRange α) :=
  if ¬ (0 ≤ first ∧ 0 ≤ last ∧ first ≤ last) then .error .fault
  else do
    if ¬ (← withinSize c last) then .error .fault
    else
      let it ← beginPlus c first
      let c ← erase c 0 it
      let it ← beginPlus c (last - first)
      erase c it c.length

/-- `actions::slice(rng, from, end-to)`. -/
def toFromEnd (c : BaseRange α) (first : Int) (last : FromEnd) : Exec (BaseRange α) :=
  if ¬ (0 ≤ first ∧ last.dist ≤ 0) then .error .fault
  else do
    if ¬ (← withinSize c (first - last.dist)) then .error .fault
    else
      let it ← beginPlus c first
      let c ← erase c 0 it
      if last.dist ≠ 0 then
        let stop ← endIt c
        let it ← prevBy c stop (-last.dist)
        erase c it stop
      else .ok c

/-- `actions::slice(rng, end-from, end-to)`. -/
def betweenFromEnd (c : BaseRange α) (first last : FromEnd) : Exec (BaseRange α) :=
  if ¬ (first.dist ≤ 0 ∧ last.dist ≤ 0 ∧ first.dist ≤ last.dist) then .error .fault
  else do
    if ¬ (← withinSize c (-first.dist)) then .error .fault
    else
      let stop ← endIt c
      let it ← prevBy c stop (-last.dist)
      let c ← erase c it stop
      let stop ← endIt c
      let it ← prevBy c stop (last.dist - first.dist)
      erase c 0 it

/-- `actions::slice(rng, from, end)`. -/
def toEnd (c : BaseRange α) (first : Int) : Exec (BaseRange α) :=
  if ¬ 0 ≤ first then .error .fault
  else do
    if ¬ (← withinSize c first) then .error .fault
    else
      let it ← beginPlus c first
      erase c 0 it

/-- `actions::slice(rng, end-from, end)`. -/
def fromEndToEnd (c : BaseRange α) (first : FromEnd) : Exec (BaseRange α) :=
  if ¬ first.dist ≤ 0 then .error .fault
  else do
    if ¬ (← withinSize c (-first.dist)) then .error .fault
    else
      let stop ← endIt c
      let it ← prevBy c stop (-first.dist)
      erase c 0 it

variable {c : BaseRange α}

theorem beginPlus_eq {k : Nat} (hk : k ≤ c.length) : beginPlus c k = .ok k := by
  rw [beginPlus, nextBegin_eq hk, exec_bind_ok, c.positionAt_it]

theorem endIt_eq : endIt c = .ok c.length := by
  rw [endIt, c.beginIt_eq, exec_bind_ok, c.positionAt_it, advanceToEnd_eq c.traits (Nat.zero_le _)]

theorem prevBy_eq (hbidi : c.traits.bidirectional = true) {k : Nat} {n : Int}
    (hn : (c.length : Int) - n = k) (hk : k ≤ c.length) : prevBy c c.length n = .ok k := by
  have hpos : (⟨c.length, none⟩ : Position) = c.positionAt c.length := by
    rw [← c.positionAt_pass (BaseRange.forward_of_bidirectional hbidi) c.length]
    rfl
  rw [prevBy, hpos, c.advanceIt_eq (by omega) (Nat.le_refl _) hk (.inl hbidi), exec_bind_ok,
    c.positionAt_it]

theorem withinSize_eq {n : Int} (hn : n ≤ c.length) : withinSize c n = .ok true := by
  rw [withinSize, c.distance_eq (.inr (.inr rfl)), exec_bind_ok, decide_eq_true hn]
  split <;> rfl

theorem erase_front {k : Nat} (hk : k ≤ c.length) :
    erase c 0 k = .ok { c with list := c.list.drop k } := if_pos ⟨Nat.zero_le k, hk⟩

theorem erase_back {k : Nat} (hk : k ≤ c.length) :
    erase c k c.length = .ok { c with list := c.list.take k } := by
  have hnone : c.list.drop c.length = [] := List.drop_length
  rw [erase, if_pos ⟨hk, Nat.le_refl _⟩, hnone, List.append_nil]

/-! ## The forms -/

variable {first last : Nat}

theorem between_eq (hle : first ≤ last) (hlast : last ≤ c.length) :
    between c first last = .ok { c with list := (c.list.drop first).take (last - first) } := by
  have hcount : ((last : Int) - first) = ((last - first : Nat) : Int) := (Int.natCast_sub hle).symm
  have hfirst : first ≤ c.length := hle.trans hlast
  have hrest : last - first ≤ BaseRange.length { c with list := c.list.drop first } := by
    unfold BaseRange.length at hlast ⊢
    rw [List.length_drop]
    omega
  rw [between, if_neg (not_not.mpr (by omega)), withinSize_eq (by omega), exec_bind_ok,
    if_neg (by simp), beginPlus_eq hfirst, exec_bind_ok, erase_front hfirst, exec_bind_ok, hcount,
    beginPlus_eq hrest, exec_bind_ok, erase_back hrest]

theorem toFromEnd_eq (hbidi : c.traits.bidirectional = true) (hle : first ≤ last)
    (hlast : last ≤ c.length) :
    toFromEnd c first (endMinus (c.length - last)) =
      .ok { c with list := (c.list.drop first).take (last - first) } := by
  have hfirst : first ≤ c.length := hle.trans hlast
  have hlen : BaseRange.length { c with list := c.list.drop first } = c.length - first :=
    List.length_drop
  rw [toFromEnd, endMinus_dist, if_neg (not_not.mpr (by omega)), withinSize_eq (by omega),
    exec_bind_ok, if_neg (by simp), beginPlus_eq hfirst, exec_bind_ok, erase_front hfirst,
    exec_bind_ok]
  by_cases hend : last = c.length
  · have hall : (c.list.drop first).take (last - first) = c.list.drop first := by
      rw [hend, ← hlen]
      exact List.take_length
    rw [if_neg (by omega), hall]
  · have hkeep : last - first ≤ BaseRange.length { c with list := c.list.drop first } := by omega
    have hprev : prevBy { c with list := c.list.drop first }
        (BaseRange.length { c with list := c.list.drop first })
        (-(-((c.length - last : Nat) : Int))) = .ok (last - first) :=
      prevBy_eq (c := { c with list := c.list.drop first }) hbidi (by omega) hkeep
    rw [if_pos (by omega), endIt_eq, exec_bind_ok, hprev, exec_bind_ok, erase_back hkeep]

theorem betweenFromEnd_eq (hbidi : c.traits.bidirectional = true) (hle : first ≤ last)
    (hlast : last ≤ c.length) :
    betweenFromEnd c (endMinus (c.length - first)) (endMinus (c.length - last)) =
      .ok { c with list := (c.list.drop first).take (last - first) } := by
  have hlen : BaseRange.length { c with list := c.list.take last } = last :=
    List.length_take_of_le hlast
  have hfirst : first ≤ BaseRange.length { c with list := c.list.take last } := by omega
  have hcut : (c.list.take last).drop first = (c.list.drop first).take (last - first) :=
    List.drop_take
  have hprev : prevBy c c.length (-(-((c.length - last : Nat) : Int))) = .ok last :=
    prevBy_eq hbidi (by omega) hlast
  have hprev' : prevBy { c with list := c.list.take last }
      (BaseRange.length { c with list := c.list.take last })
      (-((c.length - last : Nat) : Int) - -((c.length - first : Nat) : Int)) = .ok first :=
    prevBy_eq (c := { c with list := c.list.take last }) hbidi (by omega) hfirst
  rw [betweenFromEnd, endMinus_dist, endMinus_dist, if_neg (not_not.mpr (by omega)),
    withinSize_eq (by omega), exec_bind_ok, if_neg (by simp), endIt_eq, exec_bind_ok, hprev,
    exec_bind_ok, erase_back hlast, exec_bind_ok, endIt_eq, exec_bind_ok, hprev', exec_bind_ok,
    erase_front hfirst, hcut]

theorem toEnd_eq (hfirst : first ≤ c.length) :
    toEnd c first = .ok { c with list := c.list.drop first } := by
  rw [toEnd, if_neg (not_not.mpr (Int.natCast_nonneg first)), withinSize_eq (by omega),
    exec_bind_ok, if_neg (by simp), beginPlus_eq hfirst, exec_bind_ok, erase_front hfirst]

theorem fromEndToEnd_eq (hbidi : c.traits.bidirectional = true) (hfirst : first ≤ c.length) :
    fromEndToEnd c (endMinus (c.length - first)) =
      .ok { c with list := c.list.drop first } := by
  rw [fromEndToEnd, endMinus_dist, if_neg (not_not.mpr (by omega)), withinSize_eq (by omega),
    exec_bind_ok, if_neg (by simp), endIt_eq, exec_bind_ok,
    prevBy_eq hbidi (k := first) (by omega) hfirst, exec_bind_ok, erase_front hfirst]

/-- The constraints of the overload. -/
def actionable (t : RangeTraits) : SliceForm → Bool
  | .between => t.forward
  | .toFromEnd => t.bidirectional
  | .betweenFromEnd => t.bidirectional
  | .toEnd => t.forward
  | .fromEndToEnd => t.bidirectional

/-- `actions::slice` with the bounds of `[first, last)` written in the form. -/
def action (c : BaseRange α) (first last : Nat) : SliceForm → Exec (BaseRange α)
  | .between => between c first last
  | .toFromEnd => toFromEnd c first (endMinus (c.length - last))
  | .betweenFromEnd => betweenFromEnd c (endMinus (c.length - first)) (endMinus (c.length - last))
  | .toEnd => toEnd c first
  | .fromEndToEnd => fromEndToEnd c (endMinus (c.length - first))

/-- Each form leaves the same elements in the container. -/
theorem action_eq {f : SliceForm} (hle : first ≤ last) (hlast : last ≤ c.length)
    (hfits : f.Fits c.length last) (haction : actionable c.traits f = true) :
    action c first last f = .ok { c with list := (c.list.drop first).take (last - first) } := by
  have hrest : last = c.length → (c.list.drop first).take (last - first) = c.list.drop first := by
    intro hend
    apply List.take_of_length_le
    rw [List.length_drop, hend]
    exact Nat.le_refl _
  cases f with
  | between => exact between_eq hle hlast
  | toFromEnd => exact toFromEnd_eq haction hle hlast
  | betweenFromEnd => exact betweenFromEnd_eq haction hle hlast
  | toEnd =>
    rw [hrest (hfits (.inl rfl))]
    exact toEnd_eq (hle.trans hlast)
  | fromEndToEnd =>
    rw [hrest (hfits (.inr rfl))]
    exact fromEndToEnd_eq haction (hle.trans hlast)

/-! ## Both implementations -/

/-- Whatever form of the bounds `[first, last)` is written in, the view and the action have
the same elements. -/
def FormsAgree (order : ArgOrder) (b : BaseRange α) (first last : Nat) : Prop :=
  ∀ f : SliceForm, f.Fits b.length last →
    (f.viewable b.traits = true →
      ∃ v, f.view order b first last = .ok v ∧ SliceForm.Selects order b f first last v) ∧
    (actionable b.traits f = true → action b first last f =
      .ok { b with list := (b.list.drop first).take (last - first) })

/-- A single-pass base that does not tell its size any more. -/
theorem not_formsAgree_late {order : ArgOrder} {b : BaseRange α} (hlate : SizedLate order b)
    (hfirst : first < b.length) : ¬ FormsAgree order b first last := by
  intro hagree
  have hforward := hlate.2.1
  have hbidi := BaseRange.bidirectional_of_not_forward hforward
  have hrandom : b.traits.randomAccess = false := by
    apply Bool.eq_false_of_not_eq_true
    intro hrandom
    rw [b.traits.bidirectional_of_randomAccess hrandom] at hbidi
    cases hbidi
  have hview : SliceForm.viewable b.traits .betweenFromEnd = true := by
    rw [SliceForm.viewable, hlate.2.2.1, Bool.or_true]
  obtain ⟨v, hrun, hselects⟩ := (hagree .betweenFromEnd (by rintro (h | h) <;> cases h)).1 hview
  obtain ⟨from_, count, rfl, hneg⟩ : ∃ from_ count, v = .sliceView from_ count ∧ from_ < 0 := by
    rw [SliceForm.view, SliceBaseFn.betweenFromEnd] at hrun
    split at hrun
    · cases hrun
    · rw [SliceBaseFn.impl, hrandom, Bool.and_false, Bool.false_and, Bool.false_and,
        if_neg Bool.false_ne_true, if_neg Bool.false_ne_true, Except.ok.injEq] at hrun
      refine ⟨_, _, hrun.symm, ?_⟩
      rw [endMinus_dist]
      omega
  -- the first `begin` of the view faults
  obtain ⟨bound, hreads⟩ := hselects.elements _ .fresh
  have hread := hreads bound (Nat.le_refl bound)
  have hstart : (Sliced.loop order b (.sliceView from_ count) ⟨none, none⟩).start =
      .error .fault := by
    simp only [Sliced.loop, Sliced.beginCursor, hrandom, Bool.false_eq_true, if_false,
      Sliced.getBegin, posAt_late hneg hlate, exec_bind_error]
  rw [Loop.elements, hstart, exec_bind_error] at hread
  cases hread

/-- The forms agree, except where an iterator is counted from the end of a single-pass base
that is asked for its size too late. -/
theorem slice_formsAgree_iff (order : ArgOrder) (b : BaseRange α) {first last : Nat}
    (hle : first ≤ last) (hlast : last ≤ b.length) :
    FormsAgree order b first last ↔ ¬ (SizedLate order b ∧ first < b.length) := by
  constructor
  · exact fun hagree hlate => not_formsAgree_late hlate.1 hlate.2 hagree
  · intro hsize f hfits
    exact ⟨fun hview => SliceForm.view_selects hle hlast hfits hview hsize,
      fun haction => action_eq hle hlast hfits haction⟩

theorem slice_formsAgree_iff_list :
    1 ≤ 3 ∧ 3 ≤ 4 ∧
      (FormsAgree .leftFirst (⟨[0, 1, 2, 3], .ofList, false, false⟩ : BaseRange Nat) 1 3 ↔
        ¬ (SizedLate .leftFirst (⟨[0, 1, 2, 3], .ofList, false, false⟩ : BaseRange Nat) ∧ 1 < 4)) :=
  ⟨by decide, by decide, slice_formsAgree_iff .leftFirst ⟨[0, 1, 2, 3], .ofList, false, false⟩
    (by decide) (by decide)⟩

/-- The `debug_input_view` of the tests: single-pass, with a sized sentinel, and with a `size()`
that ensures that there is no iterator yet. -/
def debugInputView (l : List α) : BaseRange α :=
  ⟨l, ⟨.input, false, true, false, true, by decide, by decide⟩, false, true⟩

/-- `slice(rng, end-2, end)` of three elements, with arguments evaluated from the left. -/
theorem slice_not_formsAgree :
    ¬ FormsAgree .leftFirst (debugInputView [0, 1, 2]) 1 3 :=
  not_formsAgree_late ⟨rfl, rfl, rfl, rfl⟩ (by decide)

end Slice

end EARanges.Action
