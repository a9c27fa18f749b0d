import EARanges.Adaptor.Interface

/-!
# `reverse_view`

view/reverse.hpp and iterator/reverse_iterator.hpp. A reverse iterator holds an iterator of the
base and stands for the element before it. Where the base ends at a sentinel, the iterator there
has to be looked for, and is memoised.
-/
namespace EARanges.Adaptor
open EARanges.Support

variable {α : Type}

section
variable (R : RangeModel α) (fuel : Nat)

/-- `next(begin(rng), end(rng))`. -/
def findEnd : Effect R.State R.Iter := do
  let it ← R.begin
  let last ← R.end_
  advanceToEnd R fuel last it

def reverseBegin : Effect (R.State × Option R.Iter) R.Iter :=
  if R.caps.common then .onFst R.endIter else Effect.memo (findEnd R fuel)

def reverse : RangeModel α where
  State := R.State × Option R.Iter
  Iter := R.Iter
  Sent := R.Iter
  caps := {
    bidirectional := true
    randomAccess := R.caps.randomAccess
    common := true
    sized := R.caps.sized || R.caps.sizedIter
    sizedIter := R.caps.sizedIter
    sizedSentinel := R.caps.sizedIter
    bidirectional_of_random := fun _ => rfl
    sizedIter_of_random := R.sizedIter_of_random
    sentinel_of_common := fun _ => rfl }
  fresh := (R.fresh, none)
  begin := reverseBegin R fuel
  end_ := .onFst R.begin
  asIter it := .ok it
  read it := .onFst do
    let tmp ← R.prev it
    R.read tmp
  next it := .onFst (R.prev it)
  prev it := .onFst (R.next it)
  equal left right := .onFst (R.equal left right)
  reached it last := .onFst (R.equal it last)
  advance n it := .onFst (R.advance (-n) it)
  distanceTo left right := .onFst (R.distanceTo right left)
  distanceToEnd it last := .onFst (R.distanceTo last it)
  size :=
    if R.caps.sized then .onFst R.size
    else sizeByEnds (reverseBegin R fuel) (.onFst R.begin)
      fun it last => .onFst (R.distanceTo last it)
  jumpHook := none

end

section
variable {R : RangeModel α} {xs : List α} {Inv : Phase → R.State → Prop}
  {At : Nat → R.Iter → Prop} {AtEnd : R.Sent → Prop} {fuel : Nat}

/-- `i` elements lie behind the iterator inside. -/
def FromEnd {ι : Type} (xs : List α) (At : Nat → ι → Prop) (i : Nat) (c : ι) : Prop :=
  At (xs.length - i) c ∧ i ≤ xs.length

theorem findEnd_yields (h : Presents R xs Inv At AtEnd) (hfuel : xs.length < fuel) :
    Yields (Inv .idle) (findEnd R fuel) (Inv .live) (At xs.length) := by
  apply h.begin.bind
  intro c hc
  apply (h.end_ .live).bind
  intro e he
  exact advanceToEnd_gives h hc he hfuel

theorem reverseBegin_yields (h : Presents R xs Inv At AtEnd)
    (hbidir : R.caps.bidirectional = true) (hfuel : xs.length < fuel) :
    Yields (OverCache Inv (At xs.length) .idle) (reverseBegin R fuel)
      (OverCache Inv (At xs.length) .live) (At xs.length) := by
  unfold reverseBegin
  split
  next hcommon => exact (h.endIter_yields hcommon hbidir).caching
  next => exact (findEnd_yields h hfuel).memo.mono (fun s hs => ⟨hs.1, hs.2.cacheOf⟩) fun _ hc => hc

/-- A step back in the base. -/
theorem prev_fromEnd (h : Presents R xs Inv At AtEnd) (hbidir : R.caps.bidirectional = true)
    {i : Nat} {c : R.Iter} (hc : FromEnd xs At i c) (hi : i < xs.length) :
    Gives (Inv .live) (R.prev c) (At (xs.length - (i + 1))) := by
  have hat := hc.1
  rw [show xs.length - i = xs.length - (i + 1) + 1 by omega] at hat
  exact h.prev hbidir hat

theorem reverseSize_gives (h : Presents R xs Inv At AtEnd)
    (hbidir : R.caps.bidirectional = true) (hfuel : xs.length < fuel)
    (hsized : (reverse R fuel).caps.sized = true) (phase : Phase) :
    Gives (OverCache Inv (At xs.length) phase) (reverse R fuel).size (· = xs.length) := by
  change Gives _ (if R.caps.sized then _ else _) _
  split
  next hown =>
    cases phase with
    | idle => exact (h.size hown .idle).caching (h.size hown .live) h.idle
    | live => exact Gives.over (h.size hown .live)
  next hown =>
    have hiter := (Bool.or_eq_true_iff.mp hsized).resolve_left hown
    have hbegin := h.gives_of_yields h.begin
    have hrun := sizeByEnds_yields (n := xs.length) (reverseBegin_yields h hbidir hfuel)
      ((hbegin .idle).caching (hbegin .live) h.idle) fun c e hc he => by
        apply Gives.over
        exact (h.distanceTo hiter he hc).mono fun n hn => by omega
    cases phase with
    | idle => exact hrun.mono (fun _ hs => caching_of_both h.idle hs) fun _ hn => hn
    | live => exact hrun.weaken fun _ hs => caching_of_both h.idle hs

theorem reverse_presents (h : Presents R xs Inv At AtEnd) (hbidir : R.caps.bidirectional = true)
    (hfuel : xs.length < fuel) :
    Presents (reverse R fuel) xs.reverse (OverCache Inv (At xs.length)) (FromEnd xs At) (At 0) where
  fresh := caching_of_empty h.fresh
  idle _ hs := caching_of_both h.idle hs
  le hc := by
    rw [List.length_reverse]
    exact hc.2
  begin := (reverseBegin_yields h hbidir hfuel).mono (fun _ hs => hs)
    fun c hc => ⟨hc, Nat.zero_le _⟩
  end_ phase := by
    have hbegin := h.gives_of_yields h.begin
    cases phase with
    | idle => exact (hbegin .idle).caching (hbegin .live) h.idle
    | live => exact Gives.over (hbegin .live)
  endLive _ _ := h.begin.caching
  asIter _ e he := by
    rw [List.length_reverse]
    exact ⟨e, rfl, by rwa [Nat.sub_self], Nat.le_refl _⟩
  read {i c x} hc hx := by
    have hi := (List.getElem?_eq_some_iff.mp hx).1
    rw [List.length_reverse] at hi
    rw [List.getElem?_reverse hi] at hx
    apply Gives.over
    apply (prev_fromEnd h hbidir hc hi).bind
    intro c' hc'
    rw [Nat.sub_sub, Nat.add_comm 1 i] at hx
    exact h.read hc' hx
  next hc hi := by
    rw [List.length_reverse] at hi
    exact Gives.over ((prev_fromEnd h hbidir hc hi).mono fun c' hc' => ⟨hc', hi⟩)
  prev _ i c hc := by
    have hle := hc.2
    have hnext := h.next hc.1 (by omega)
    rw [show xs.length - (i + 1) + 1 = xs.length - i by omega] at hnext
    exact Gives.over (hnext.mono fun c' hc' => ⟨hc', by omega⟩)
  equal hc hd := Gives.over ((h.equal hc.1 hd.1).mono fun b hb =>
    hb.trans (decide_eq_decide.mpr (by have := hc.2; have := hd.2; omega)))
  reached hc he := by
    rw [List.length_reverse]
    exact Gives.over ((h.equal hc.1 he).mono fun b hb =>
      hb.trans (decide_eq_decide.mpr (by have := hc.2; omega)))
  advance hrandom i j n c hc hn hj := by
    rw [List.length_reverse] at hj
    have hle := hc.2
    have hadvance := h.advance hrandom hc.1 (n := -n) (j := xs.length - j) (by omega) (by omega)
    exact Gives.over (hadvance.mono fun c' hc' => ⟨hc', hj⟩)
  distanceTo hsized i j c d hc hd := by
    have hle := hc.2
    have hle' := hd.2
    exact Gives.over ((h.distanceTo hsized hd.1 hc.1).mono fun n hn => by omega)
  distanceToEnd hsized i c e hc he := by
    have hle := hc.2
    rw [List.length_reverse]
    exact Gives.over ((h.distanceTo hsized he hc.1).mono fun n hn => by omega)
  size hsized phase := by
    rw [List.length_reverse]
    exact reverseSize_gives h hbidir hfuel hsized phase
  jumpHook := nofun

theorem lawful_reverse (h : Lawful R xs) (hbidir : R.caps.bidirectional = true)
    (hfuel : xs.length < fuel) : Lawful (reverse R fuel) xs.reverse := by
  obtain ⟨Inv, At, AtEnd, h⟩ := h
  exact ⟨_, _, _, reverse_presents h hbidir hfuel⟩

end

end EARanges.Adaptor
