import EARanges.Adaptor.Interface

/-!
# `transform_view`

view/adaptor.hpp and view/transform.hpp. A `view_adaptor` has the iterators of its base inside
its own; what an adaptor does not override is `adaptor_base`'s, which passes the operation on.
Its sentinels cannot be subtracted unless they are iterators. `transform_view` overrides `read`.
-/
namespace EARanges.Adaptor
open EARanges.Support

variable {α β : Type}

/-- The iterators keep what they can do; an `adaptor_sentinel` has no `distance_to`. A range
whose sentinels can be subtracted has a size. -/
def adaptedCaps (caps : Capabilities) : Capabilities where
  bidirectional := caps.bidirectional
  randomAccess := caps.randomAccess
  common := caps.common
  sized := caps.sized || caps.common && caps.sizedIter
  sizedIter := caps.sizedIter
  sizedSentinel := caps.common && caps.sizedIter
  bidirectional_of_random := caps.bidirectional_of_random
  sizedIter_of_random := caps.sizedIter_of_random
  sentinel_of_common h := by rw [h, Bool.true_and]

/-- The distance to an `end` that is an iterator. -/
def distanceToIter (R : RangeModel α) (it : R.Iter) (last : R.Sent) : Effect R.State Int := do
  let last ← .ofExec (R.asIter last)
  R.distanceTo it last

def transform (fun_ : α → β) (R : RangeModel α) : RangeModel β where
  State := R.State
  Iter := R.Iter
  Sent := R.Sent
  caps := adaptedCaps R.caps
  fresh := R.fresh
  begin := R.begin
  end_ := R.end_
  asIter := R.asIter
  read it := do
    let x ← R.read it
    pure (fun_ x)
  next := R.next
  prev := R.prev
  equal := R.equal
  reached := R.reached
  advance := R.advance
  distanceTo := R.distanceTo
  distanceToEnd := distanceToIter R
  size := if R.caps.sized then R.size else sizeByEnds R.begin R.end_ (distanceToIter R)
  jumpHook := none

section
variable {R : RangeModel α} {xs : List α} {Inv : Phase → R.State → Prop}
  {At : Nat → R.Iter → Prop} {AtEnd : R.Sent → Prop}

theorem distanceToIter_gives (h : Presents R xs Inv At AtEnd)
    (hcaps : (adaptedCaps R.caps).sizedSentinel = true) {i : Nat} {it : R.Iter} {last : R.Sent}
    (hit : At i it) (hlast : AtEnd last) :
    Gives (Inv .live) (distanceToIter R it last) fun n => n = (xs.length : Int) - i := by
  obtain ⟨hcommon, hsized⟩ := Bool.and_eq_true_iff.mp hcaps
  obtain ⟨c, hc, hat⟩ := h.asIter hcommon hlast
  apply (Gives.ofExec hc hat).bind
  intro c hc
  exact h.distanceTo hsized hit hc

theorem adaptedSize_gives (h : Presents R xs Inv At AtEnd)
    (hcaps : (adaptedCaps R.caps).sized = true) (phase : Phase) :
    Gives (Inv phase)
      (if R.caps.sized then R.size else sizeByEnds R.begin R.end_ (distanceToIter R))
      (· = xs.length) := by
  split
  next hsized => exact h.size hsized phase
  next hsized =>
    have hends := (Bool.or_eq_true_iff.mp hcaps).resolve_left hsized
    apply h.gives_of_yields
    apply sizeByEnds_yields h.begin (h.end_ .idle)
    intro c e hc he
    apply (distanceToIter_gives h hends hc he).mono
    rintro n rfl
    exact Int.sub_zero _

theorem transform_presents (h : Presents R xs Inv At AtEnd) (fun_ : α → β) :
    Presents (transform fun_ R) (xs.map fun_) Inv At AtEnd where
  fresh := h.fresh
  idle := h.idle
  le hc := by
    rw [List.length_map]
    exact h.le hc
  begin := h.begin
  end_ := h.end_
  endLive := h.endLive
  asIter hcommon e he := by
    rw [List.length_map]
    exact h.asIter hcommon he
  read hc hx := by
    rw [List.getElem?_map, Option.map_eq_some_iff] at hx
    obtain ⟨y, hy, rfl⟩ := hx
    apply (h.read hc hy).bind
    rintro y rfl
    exact .pure rfl
  next hc hi := h.next hc (by rwa [List.length_map] at hi)
  prev := h.prev
  equal := h.equal
  reached hc he := by
    rw [List.length_map]
    exact h.reached hc he
  advance hrandom i j n c hc hn hj := h.advance hrandom hc hn (by rwa [List.length_map] at hj)
  distanceTo := h.distanceTo
  distanceToEnd hsized i c e hc he := by
    rw [List.length_map]
    exact distanceToIter_gives h hsized hc he
  size hsized phase := by
    rw [List.length_map]
    exact adaptedSize_gives h hsized phase
  jumpHook hhook := nomatch hhook

theorem lawful_transform (h : Lawful R xs) (fun_ : α → β) :
    Lawful (transform fun_ R) (xs.map fun_) := by
  obtain ⟨Inv, At, AtEnd, h⟩ := h
  exact ⟨_, _, _, transform_presents h fun_⟩

end

end EARanges.Adaptor
