import EARanges.Adaptor.Window

/-!
# Views with counted iterators: the other cases of `take` and `take_exactly`

iterator/counted_iterator.hpp, view/take.hpp and view/take_exactly.hpp. A counted iterator is an
iterator with the number of steps it may still make; two of them are compared and subtracted by
that number alone, so they can be subtracted where the iterators inside cannot. `take_view`
counts down from its size if the base is sized, and from the number it was given if not, where
it has to look for the end of the base as well.
-/
namespace EARanges.Adaptor
open EARanges.Support

variable {α : Type}

/-- A view with iterators counted down from `count`, and sentinels of type `S`. -/
def countedView (R : RangeModel α) {S : Type} (count : Effect R.State Nat)
    (end_ : Effect R.State S) (reached : R.Iter × Int → S → Effect R.State Bool) (sized : Bool)
    (size : Effect R.State Nat) : RangeModel α where
  State := R.State
  Iter := R.Iter × Int
  Sent := S
  caps := {
    bidirectional := R.caps.bidirectional
    randomAccess := R.caps.randomAccess
    common := false
    sized := sized
    sizedIter := true
    sizedSentinel := sized
    bidirectional_of_random := R.bidirectional_of_random
    sizedIter_of_random := fun _ => rfl
    sentinel_of_common := nofun }
  fresh := R.fresh
  begin := do
    let n ← count
    let current ← R.begin
    pure (current, n)
  end_ := end_
  asIter _ := .error .fault
  read it := do
    Effect.require (0 < it.2)
    R.read it.1
  next it := do
    Effect.require (0 < it.2)
    let current ← R.next it.1
    pure (current, it.2 - 1)
  prev it := do
    let current ← R.prev it.1
    pure (current, it.2 + 1)
  equal x y := pure (decide (x.2 = y.2))
  reached := reached
  advance n it := do
    Effect.require (n ≤ it.2)
    let current ← R.advance n it.1
    pure (current, it.2 - n)
  distanceTo x y := pure (x.2 - y.2)
  distanceToEnd it _ := pure it.2
  size := size
  jumpHook := some fun n it => do
    Effect.require (n ≤ it.2)
    let current ← advanceN R n it.1
    pure (current, it.2 - n)

section
variable (R : RangeModel α)

/-- `it.count() == 0`. -/
def countIsZero (it : R.Iter × Int) (_ : Unit) : Effect R.State Bool :=
  pure (decide (it.2 = 0))

/-- `it.count() == 0 || it.base() == last`. -/
def countIsZeroOr (it : R.Iter × Int) (last : R.Sent) : Effect R.State Bool :=
  if it.2 = 0 then pure true else R.reached it.1 last

/-- `take_view` of a sized range without random access, which ends at `default_sentinel`. -/
def takeSized (count : Nat) : RangeModel α :=
  countedView R (takeSize R count) (pure ()) (countIsZero R) true (takeSize R count)

/-- `take_view` of a range without a size. -/
def takeUnsized (count : Nat) : RangeModel α :=
  countedView R (pure count) R.end_ (countIsZeroOr R) false Effect.fault

/-- `take_exactly_view_` of any other range. -/
def takeExactlyCounted (n : Nat) : RangeModel α :=
  countedView R (pure n) (pure ()) (countIsZero R) true (pure n)

def take (count : Nat) : RangeModel α :=
  if R.caps.sized then
    if R.caps.randomAccess then takeRandom R count else takeSized R count
  else takeUnsized R count

def takeExactly (n : Nat) : RangeModel α :=
  if R.caps.randomAccess && R.caps.common then takeExactlyRandom R n else takeExactlyCounted R n

end

section
variable {R : RangeModel α} {xs : List α} {Inv : Phase → R.State → Prop}
  {At : Nat → R.Iter → Prop} {AtEnd : R.Sent → Prop} {total m : Nat}

/-- The iterator inside has made `i` of the `m` steps, and the count is what is left of `total`. -/
structure CountedAt {ι : Type} (At : Nat → ι → Prop) (total m i : Nat) (it : ι × Int) : Prop where
  base : At i it.1
  count : it.2 = (total : Int) - i
  le : i ≤ m

theorem countedView_presents (h : Presents R xs Inv At AtEnd) (hm : m ≤ xs.length)
    (hmt : m ≤ total) {S : Type} {End : S → Prop} {count size : Effect R.State Nat}
    {end_ : Effect R.State S} {reached : R.Iter × Int → S → Effect R.State Bool} {sized : Bool}
    (hcount : Gives (Inv .idle) count (· = total)) (hend : ∀ phase, Gives (Inv phase) end_ End)
    (hreached : ∀ {i it e}, CountedAt At total m i it → End e →
      Gives (Inv .live) (reached it e) (· = decide (i = m)))
    (hsized : sized = true → total = m ∧ ∀ phase, Gives (Inv phase) size (· = m)) :
    Presents (countedView R count end_ reached sized size) (xs.take m) Inv (CountedAt At total m)
      End := by
  have hlength : (xs.take m).length = m := List.length_take_of_le hm
  exact {
    fresh := h.fresh
    idle := h.idle
    le := fun hc => by
      rw [hlength]
      exact hc.le
    begin := by
      apply Yields.bind hcount
      rintro n rfl
      apply h.begin.bind
      intro c hc
      exact Gives.pure ⟨hc, by simp, Nat.zero_le m⟩
    end_ := hend
    endLive := nofun
    asIter := nofun
    read := fun {i it x} hc hx => by
      have hi := (List.getElem?_eq_some_iff.mp hx).1
      have hcnt := hc.count
      rw [hlength] at hi
      rw [List.getElem?_take_of_lt hi] at hx
      apply (Gives.require (by omega)).bind
      intro _ _
      exact h.read hc.base hx
    next := fun {i it} hc hi => by
      have hcnt := hc.count
      rw [hlength] at hi
      apply (Gives.require (by omega)).bind
      intro _ _
      apply (h.next hc.base (by omega)).bind
      intro c hc'
      exact .pure ⟨hc', by push_cast; omega, hi⟩
    prev := fun hbidir i it hc => by
      have hcnt := hc.count
      apply (h.prev hbidir hc.base).bind
      intro c hc'
      exact .pure ⟨hc', by push_cast at hcnt ⊢; omega, Nat.le_of_succ_le hc.le⟩
    equal := fun {i j c d} hc hd => by
      have hcnt := hc.count
      have hcnt' := hd.count
      exact .pure (decide_eq_decide.mpr (by omega))
    reached := fun hc he => by
      rw [hlength]
      exact hreached hc he
    advance := fun hrandom i j n it hc hn hj => by
      have hcnt := hc.count
      rw [hlength] at hj
      apply (Gives.require (by omega)).bind
      intro _ _
      apply (h.advance hrandom hc.base hn (by omega)).bind
      intro c hc'
      exact .pure ⟨hc', by dsimp only; omega, hj⟩
    distanceTo := fun _ i j c d hc hd => by
      have hcnt := hc.count
      have hcnt' := hd.count
      exact .pure (by omega)
    distanceToEnd := fun hs i it e hc _ => by
      have hcnt := hc.count
      rw [hlength]
      exact .pure (by have := (hsized hs).1; omega)
    size := fun hs phase => by
      rw [hlength]
      exact (hsized hs).2 phase
    jumpHook := fun hhook i j n it hc hn hj hback => by
      have hcnt := hc.count
      rw [hlength] at hj
      obtain rfl := Option.some.inj hhook
      apply (Gives.require (by omega)).bind
      intro _ _
      apply (advanceN_gives h hc.base hn (by omega) hback).bind
      intro c hc'
      exact .pure ⟨hc', by dsimp only; omega, hj⟩ }

theorem countIsZero_gives (i : Nat) (it : R.Iter × Int) (e : Unit)
    (hc : CountedAt At m m i it) (_ : True) :
    Gives (Inv .live) (countIsZero R it e) (· = decide (i = m)) := by
  have hcnt := hc.count
  exact .pure (decide_eq_decide.mpr (by omega))

theorem lawful_takeSized (h : Lawful R xs) (hsized : R.caps.sized = true) (count : Nat) :
    Lawful (takeSized R count) (xs.take count) := by
  obtain ⟨Inv, At, AtEnd, h⟩ := h
  rw [List.take_eq_take_min, Nat.min_comm]
  exact ⟨_, _, _, countedView_presents h (Nat.min_le_left _ _) (Nat.le_refl _)
    (takeSize_gives h hsized count .idle) (fun _ => .pure trivial) (countIsZero_gives _ _ _)
    fun _ => ⟨rfl, takeSize_gives h hsized count⟩⟩

theorem lawful_takeUnsized (h : Lawful R xs) (count : Nat) :
    Lawful (takeUnsized R count) (xs.take count) := by
  obtain ⟨Inv, At, AtEnd, h⟩ := h
  rw [List.take_eq_take_min]
  refine ⟨_, _, _, countedView_presents h (Nat.min_le_right count _) (Nat.min_le_left _ _)
    (.pure rfl) h.end_ ?_ nofun⟩
  intro i it e hc he
  have hcnt := hc.count
  have hle := hc.le
  unfold countIsZeroOr
  split
  next hzero => exact .pure (decide_eq_true (by omega)).symm
  next hzero =>
    apply (h.reached hc.base he).mono
    rintro b rfl
    exact decide_eq_decide.mpr (by omega)

theorem lawful_takeExactlyCounted (h : Lawful R xs) {n : Nat} (hn : n ≤ xs.length) :
    Lawful (takeExactlyCounted R n) (xs.take n) := by
  obtain ⟨Inv, At, AtEnd, h⟩ := h
  exact ⟨_, _, _, countedView_presents h hn (Nat.le_refl n) (.pure rfl) (fun _ => .pure trivial)
    (countIsZero_gives _ _ _) fun _ => ⟨rfl, fun _ => .pure rfl⟩⟩

/-- `take_view` of any range, whichever of its three forms it has. -/
theorem lawful_take (h : Lawful R xs) (count : Nat) : Lawful (take R count) (xs.take count) := by
  unfold take
  split
  next hsized =>
    split
    next hrandom => exact lawful_takeRandom h hrandom hsized count
    next => exact lawful_takeSized h hsized count
  next => exact lawful_takeUnsized h count

theorem lawful_takeExactly (h : Lawful R xs) {n : Nat} (hn : n ≤ xs.length) :
    Lawful (takeExactly R n) (xs.take n) := by
  unfold takeExactly
  split
  next hcaps => exact lawful_takeExactlyRandom h (Bool.and_eq_true_iff.mp hcaps).1 hn
  next => exact lawful_takeExactlyCounted h hn

end

end EARanges.Adaptor
