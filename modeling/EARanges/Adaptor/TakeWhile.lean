import EARanges.Adaptor.FindIfNot

/-!
# Views that end at an element: `take_while` and `delimit`

view/take_while.hpp and view/delimit.hpp. The iterators are those of the base; the sentinel
looks at the element as well.
-/
namespace EARanges.Adaptor
open EARanges.Support EARanges.View

variable {α : Type}

/-- `it == last || stop(*it)`. -/
def sentinelEmpty (R : RangeModel α) (stop : α → Bool) (it : R.Iter) (last : R.Sent) :
    Effect R.State Bool := do
  if ← R.reached it last then pure true
  else testAt R stop it

/-- A view that ends at the first element with `stop`. -/
def untilView (R : RangeModel α) (stop : α → Bool) : RangeModel α where
  State := R.State
  Iter := R.Iter
  Sent := R.Sent
  caps := {
    bidirectional := R.caps.bidirectional
    randomAccess := R.caps.randomAccess
    common := false
    sized := false
    sizedIter := R.caps.sizedIter
    sizedSentinel := false
    bidirectional_of_random := R.bidirectional_of_random
    sizedIter_of_random := R.sizedIter_of_random
    sentinel_of_common := nofun }
  fresh := R.fresh
  begin := R.begin
  end_ := R.end_
  asIter _ := .error .fault
  read := R.read
  next := R.next
  prev := R.prev
  equal := R.equal
  reached := sentinelEmpty R stop
  advance := R.advance
  distanceTo := R.distanceTo
  distanceToEnd _ _ := Effect.fault
  size := Effect.fault
  jumpHook := none

def takeWhile (R : RangeModel α) (pred : α → Bool) : RangeModel α :=
  untilView R fun x => !pred x

def delimit [BEq α] (R : RangeModel α) (value : α) : RangeModel α :=
  untilView R (· == value)

section
variable {R : RangeModel α} {xs : List α} {Inv : Phase → R.State → Prop}
  {At : Nat → R.Iter → Prop} {AtEnd : R.Sent → Prop}

/-- One of the first `m` positions, or the one behind them. -/
def UpTo {ι : Type} (At : Nat → ι → Prop) (m i : Nat) (c : ι) : Prop := At i c ∧ i ≤ m

theorem sentinelEmpty_gives (h : Presents R xs Inv At AtEnd) (pred : α → Bool) {i : Nat}
    {it : R.Iter} {last : R.Sent} (hit : UpTo At (xs.takeWhile pred).length i it)
    (hlast : AtEnd last) :
    Gives (Inv .live) (sentinelEmpty R (fun x => !pred x) it last)
      (· = decide (i = (xs.takeWhile pred).length)) := by
  have hle := h.le hit.1
  have hiff := (firstFrom_takeWhile xs pred).end_or_keep_iff (Nat.zero_le i) hit.2
  apply (h.reached hit.1 hlast).bind
  rintro b rfl
  by_cases hend : i = xs.length
  · rw [decide_eq_true hend, if_pos rfl]
    exact .pure (decide_eq_true (hiff.mp (.inl hend))).symm
  · have hlt : i < xs.length := by omega
    rw [decide_eq_false hend, if_neg Bool.false_ne_true]
    apply (testAt_gives h _ hit.1 hlt).mono
    rintro b rfl
    rw [or_iff_right hend, ← decide_eq_true_iff (p := i = _)] at hiff
    rw [← Bool.eq_iff_iff.mpr hiff, unremoved,
      RemoveIfView.keeps_of_get (List.getElem?_eq_getElem hlt)]

theorem untilView_presents (h : Presents R xs Inv At AtEnd) (pred : α → Bool) :
    Presents (untilView R fun x => !pred x) (xs.takeWhile pred) Inv
      (UpTo At (xs.takeWhile pred).length) AtEnd := by
  have hprefix := List.takeWhile_prefix pred (l := xs)
  have hm := hprefix.length_le
  exact {
    fresh := h.fresh
    idle := h.idle
    le := fun hc => hc.2
    begin := h.begin.mono (fun _ hs => hs) fun c hc => ⟨hc, Nat.zero_le _⟩
    end_ := h.end_
    endLive := nofun
    asIter := nofun
    read := fun {i c x} hc hx => by
      have hi := (List.getElem?_eq_some_iff.mp hx).1
      rw [List.prefix_iff_eq_take.mp hprefix, List.getElem?_take_of_lt hi] at hx
      exact h.read hc.1 hx
    next := fun hc hi => (h.next hc.1 (by omega)).mono fun c' hc' => ⟨hc', hi⟩
    prev := fun hbidir i c hc =>
      (h.prev hbidir hc.1).mono fun c' hc' => ⟨hc', Nat.le_of_succ_le hc.2⟩
    equal := fun hc hd => h.equal hc.1 hd.1
    reached := fun hc he => sentinelEmpty_gives h pred hc he
    advance := fun hrandom i j n c hc hn hj =>
      (h.advance hrandom hc.1 hn (by omega)).mono fun c' hc' => ⟨hc', hj⟩
    distanceTo := fun hsized i j c d hc hd => h.distanceTo hsized hc.1 hd.1
    distanceToEnd := nofun
    size := nofun
    jumpHook := nofun }

theorem lawful_takeWhile (h : Lawful R xs) (pred : α → Bool) :
    Lawful (takeWhile R pred) (xs.takeWhile pred) := by
  obtain ⟨Inv, At, AtEnd, h⟩ := h
  exact ⟨_, _, _, untilView_presents h pred⟩

theorem lawful_delimit [BEq α] (h : Lawful R xs) (value : α) :
    Lawful (delimit R value) (xs.takeWhile (· != value)) := by
  obtain ⟨Inv, At, AtEnd, h⟩ := h
  have hstop : (fun x => !(x != value)) = (· == value) := funext fun x => Bool.not_not (x == value)
  rw [delimit, ← hstop]
  exact ⟨_, _, _, untilView_presents h (· != value)⟩

end

end EARanges.Adaptor
