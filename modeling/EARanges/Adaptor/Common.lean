import EARanges.Adaptor.Interface
import EARanges.Adaptor.Window

/-!
# `common_view`

view/common.hpp and iterator/common_iterator.hpp. Over a sized random-access range the view ends
at an iterator of its base. Otherwise its iterators are `common_iterator`s, each of which holds an
iterator or a sentinel; they only go forward.
-/
namespace EARanges.Adaptor
open EARanges.Support

variable {α : Type}

/-- `variant<I, S>`. -/
inductive CommonIterator (ι σ : Type) where
  | iterator (it : ι)
  | sentinel (last : σ)

section
variable (R : RangeModel α)

/-- `ranges::get<0>(data_)`. -/
def CommonIterator.get {ι σ : Type} : CommonIterator ι σ → Exec ι
  | .iterator it => .ok it
  | .sentinel _ => .error .fault

/-- `operator==` of iterators that can be compared. -/
def commonEqual : CommonIterator R.Iter R.Sent → CommonIterator R.Iter R.Sent →
    Effect R.State Bool
  | .sentinel _, .sentinel _ => pure true
  | .sentinel last, .iterator it => R.reached it last
  | .iterator it, .sentinel last => R.reached it last
  | .iterator left, .iterator right => R.equal left right

/-- `left - right`. -/
def commonDifference : CommonIterator R.Iter R.Sent → CommonIterator R.Iter R.Sent →
    Effect R.State Int
  | .sentinel _, .sentinel _ => pure 0
  | .sentinel last, .iterator it => R.distanceToEnd it last
  | .iterator it, .sentinel last => do
    let n ← R.distanceToEnd it last
    pure (-n)
  | .iterator left, .iterator right => R.distanceTo right left

def commonBegin : Effect R.State (CommonIterator R.Iter R.Sent) := do
  let it ← R.begin
  pure (.iterator it)

def commonEnd : Effect R.State (CommonIterator R.Iter R.Sent) := do
  let last ← R.end_
  pure (.sentinel last)

/-- `common_view` with `common_iterator`s. -/
def commonIterators : RangeModel α where
  State := R.State
  Iter := CommonIterator R.Iter R.Sent
  Sent := CommonIterator R.Iter R.Sent
  caps := {
    bidirectional := false
    randomAccess := false
    common := true
    sized := R.caps.sized || R.caps.sizedIter && R.caps.sizedSentinel
    sizedIter := R.caps.sizedIter && R.caps.sizedSentinel
    sizedSentinel := R.caps.sizedIter && R.caps.sizedSentinel
    bidirectional_of_random := fun h => h
    sizedIter_of_random := nofun
    sentinel_of_common := fun _ => rfl }
  fresh := R.fresh
  begin := commonBegin R
  end_ := commonEnd R
  asIter it := .ok it
  read it := do
    let it ← .ofExec it.get
    R.read it
  next it := do
    let it ← .ofExec it.get
    let it ← R.next it
    pure (.iterator it)
  prev _ := Effect.fault
  equal := commonEqual R
  reached := commonEqual R
  advance _ _ := Effect.fault
  distanceTo left right := commonDifference R right left
  distanceToEnd it last := commonDifference R last it
  size :=
    if R.caps.sized then R.size
    else sizeByEnds (commonBegin R) (commonEnd R) fun it last => commonDifference R last it
  jumpHook := none

/-- `begin(rng) + distance(rng)`. -/
def beginPlusDistance (fuel : Nat) : Effect R.State R.Iter := do
  let n ← distance R fuel
  beginPlus R n

/-- A common range is left as it is. -/
def common (fuel : Nat) : RangeModel α :=
  if R.caps.common then R
  else if R.caps.randomAccess && R.caps.sized then
    windowView R () (.onFst R.begin) (.onFst (beginPlusDistance R fuel)) true R.size
  else commonIterators R

end

section
variable {R : RangeModel α} {xs : List α} {Inv : Phase → R.State → Prop}
  {At : Nat → R.Iter → Prop} {AtEnd : R.Sent → Prop} {fuel : Nat}

/-- Where a `common_iterator` is; a sentinel is at the end. -/
def CommonAt {ι σ : Type} (At : Nat → ι → Prop) (AtEnd : σ → Prop) (n i : Nat) :
    CommonIterator ι σ → Prop
  | .iterator it => At i it
  | .sentinel last => i = n ∧ AtEnd last

/-- A position before the end is that of an iterator. -/
theorem get_of_lt {ι σ : Type} {At : Nat → ι → Prop} {AtEnd : σ → Prop} {n i : Nat}
    {c : CommonIterator ι σ} (hc : CommonAt At AtEnd n i c) (hi : i < n) :
    ∃ it, c.get = .ok it ∧ At i it := by
  cases c with
  | iterator it => exact ⟨it, rfl, hc⟩
  | sentinel last => exact absurd hc.1 (Nat.ne_of_lt hi)

theorem commonEqual_gives (h : Presents R xs Inv At AtEnd) {i j : Nat}
    {c d : CommonIterator R.Iter R.Sent} (hc : CommonAt At AtEnd xs.length i c)
    (hd : CommonAt At AtEnd xs.length j d) :
    Gives (Inv .live) (commonEqual R c d) (· = decide (i = j)) := by
  cases c with
  | iterator left =>
    cases d with
    | iterator right => exact h.equal hc hd
    | sentinel last =>
      obtain ⟨rfl, hlast⟩ := hd
      exact h.reached hc hlast
  | sentinel last =>
    obtain ⟨rfl, hlast⟩ := hc
    cases d with
    | iterator right =>
      apply (h.reached hd hlast).mono
      rintro b rfl
      exact decide_eq_decide.mpr eq_comm
    | sentinel last' =>
      obtain ⟨rfl, _⟩ := hd
      exact .pure (decide_eq_true rfl).symm

theorem commonDifference_gives (h : Presents R xs Inv At AtEnd)
    (hcaps : (R.caps.sizedIter && R.caps.sizedSentinel) = true) {i j : Nat}
    {c d : CommonIterator R.Iter R.Sent} (hc : CommonAt At AtEnd xs.length i c)
    (hd : CommonAt At AtEnd xs.length j d) :
    Gives (Inv .live) (commonDifference R d c) (· = (j : Int) - i) := by
  obtain ⟨hiter, hsent⟩ := Bool.and_eq_true_iff.mp hcaps
  cases d with
  | iterator right =>
    cases c with
    | iterator left => exact h.distanceTo hiter hc hd
    | sentinel last =>
      obtain ⟨rfl, hlast⟩ := hc
      apply (h.distanceToEnd hsent hd hlast).bind
      rintro n rfl
      exact .pure (by omega)
  | sentinel last =>
    obtain ⟨rfl, hlast⟩ := hd
    cases c with
    | iterator left => exact h.distanceToEnd hsent hc hlast
    | sentinel last' =>
      obtain ⟨rfl, _⟩ := hc
      exact .pure (by omega)

theorem commonBegin_yields (h : Presents R xs Inv At AtEnd) :
    Yields (Inv .idle) (commonBegin R) (Inv .live) (CommonAt At AtEnd xs.length 0) := by
  apply h.begin.bind
  intro c hc
  exact Gives.pure hc

theorem commonEnd_gives (h : Presents R xs Inv At AtEnd) (phase : Phase) :
    Gives (Inv phase) (commonEnd R) (CommonAt At AtEnd xs.length xs.length) := by
  apply (h.end_ phase).bind
  intro e he
  exact Gives.pure ⟨rfl, he⟩

theorem commonSize_gives (h : Presents R xs Inv At AtEnd)
    (hsized : (commonIterators R).caps.sized = true) (phase : Phase) :
    Gives (Inv phase) (commonIterators R).size (· = xs.length) := by
  change Gives (Inv phase) (if R.caps.sized then _ else _) _
  split
  next hown => exact h.size hown phase
  next hown =>
    have hcaps := (Bool.or_eq_true_iff.mp hsized).resolve_left hown
    apply h.gives_of_yields
    apply sizeByEnds_yields (commonBegin_yields h) (commonEnd_gives h .idle)
    intro c e hc he
    apply (commonDifference_gives h hcaps hc he).mono
    rintro n rfl
    exact Int.sub_zero _

theorem commonIterators_presents (h : Presents R xs Inv At AtEnd) :
    Presents (commonIterators R) xs Inv (CommonAt At AtEnd xs.length)
      (CommonAt At AtEnd xs.length xs.length) where
  fresh := h.fresh
  idle := h.idle
  le {i c} hc := by
    cases c with
    | iterator it => exact h.le hc
    | sentinel last => exact Nat.le_of_eq hc.1
  begin := commonBegin_yields h
  end_ := commonEnd_gives h
  endLive := nofun
  asIter _ e he := ⟨e, rfl, he⟩
  read hc hx := by
    obtain ⟨it, hget, hat⟩ := get_of_lt hc (List.getElem?_eq_some_iff.mp hx).1
    apply (Gives.ofExec hget hat).bind
    intro it hit
    exact h.read hit hx
  next hc hi := by
    obtain ⟨it, hget, hat⟩ := get_of_lt hc hi
    apply (Gives.ofExec hget hat).bind
    intro it hit
    apply (h.next hit hi).bind
    intro it' hit'
    exact Gives.pure hit'
  prev := nofun
  equal hc hd := commonEqual_gives h hc hd
  reached hc he := commonEqual_gives h hc he
  advance := nofun
  distanceTo hcaps _ _ _ _ hc hd := commonDifference_gives h hcaps hc hd
  distanceToEnd hcaps _ _ _ hc he := commonDifference_gives h hcaps hc he
  size := commonSize_gives h
  jumpHook := nofun

/-- `common_view` of any range, whichever of its three forms it has. -/
theorem lawful_common (h : Lawful R xs) (hfuel : xs.length < fuel) : Lawful (common R fuel) xs := by
  unfold common
  split
  next => exact h
  next =>
    obtain ⟨Inv, At, AtEnd, h⟩ := h
    split
    next hcaps =>
      obtain ⟨hrandom, hsized⟩ := Bool.and_eq_true_iff.mp hcaps
      have hend : Yields (Inv .idle) (beginPlusDistance R fuel) (Inv .live)
          (At (0 + xs.length)) := by
        rw [Nat.zero_add]
        apply Yields.bind (distance_gives h hfuel .idle)
        rintro n rfl
        exact beginPlus_yields h hrandom (Nat.le_refl _)
      have hlist : xs = (xs.drop 0).take xs.length := by rw [List.drop_zero, List.take_length]
      rw [hlist]
      exact ⟨_, _, _, windowView_presents (K := fun _ => True) h (by omega) ⟨h.fresh, trivial⟩
        (fun s hs => ⟨h.idle _ hs.1, trivial⟩) h.begin.onFst hend.onFst
        fun _ => Gives.uncached (h.size hsized)⟩
    next => exact ⟨_, _, _, commonIterators_presents h⟩

end

end EARanges.Adaptor
