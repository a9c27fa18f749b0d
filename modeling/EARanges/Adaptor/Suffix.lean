import EARanges.Adaptor.FindIfNot
import EARanges.Adaptor.Interface

/-!
# Views that begin later: `drop`, `drop_exactly`, `drop_while`, `tail`

view/drop.hpp, view/drop_exactly.hpp, view/drop_while.hpp and view/tail.hpp. Each hands out the
iterators of its base and the base's own end, and differs in where it begins, in whether it
memoises that, and in its size.
-/
namespace EARanges.Adaptor
open EARanges.Support

variable {α : Type}

/-- `begin` of a view that memoises it or not. -/
def suffixBegin (R : RangeModel α) (memoise : Bool) (first : Effect R.State R.Iter) :
    Effect (R.State × Option R.Iter) R.Iter :=
  if memoise then Effect.memo first else .onFst first

/-- A view whose first iterator is computed by `first`. It has a size of its `own`, or one by
its ends, unless `disable_sized_range` is set for it. -/
def suffixView (R : RangeModel α) (memoise : Bool) (first : Effect R.State R.Iter)
    (own : Option (Effect R.State Nat)) (disable : Bool) : RangeModel α where
  State := R.State × Option R.Iter
  Iter := R.Iter
  Sent := R.Sent
  caps := { R.caps with sized := !disable && (own.isSome || R.caps.sizedSentinel) }
  fresh := (R.fresh, none)
  begin := suffixBegin R memoise first
  end_ := .onFst R.end_
  asIter := R.asIter
  read it := .onFst (R.read it)
  next it := .onFst (R.next it)
  prev it := .onFst (R.prev it)
  equal left right := .onFst (R.equal left right)
  reached it last := .onFst (R.reached it last)
  advance n it := .onFst (R.advance n it)
  distanceTo left right := .onFst (R.distanceTo left right)
  distanceToEnd it last := .onFst (R.distanceToEnd it last)
  size :=
    match own with
    | some size => .onFst size
    | none => sizeByEnds (suffixBegin R memoise first) (.onFst R.end_)
        fun it last => .onFst (R.distanceToEnd it last)
  jumpHook := R.jumpHook.map fun hook n it => .onFst (hook n it)

section
variable (R : RangeModel α) (fuel : Nat)

/-- `next(begin, n, end)`. -/
def dropFirst (n : Nat) : Effect R.State R.Iter := do
  let first ← R.begin
  let last ← R.end_
  nextEnd R fuel n last first

/-- `s < n ? 0 : s - n`. -/
def dropSize (n : Nat) : Effect R.State Nat := do
  let s ← R.size
  pure (if s < n then 0 else s - n)

/-- A `size` that requires the base to have one. -/
def ifSized (size : Effect R.State Nat) : Option (Effect R.State Nat) :=
  if R.caps.sized then some size else none

def drop (n : Nat) : RangeModel α :=
  suffixView R (!R.caps.randomAccess) (dropFirst R fuel n) (ifSized R (dropSize R n)) false

/-- `next(begin, n)`. -/
def dropExactlyFirst (n : Nat) : Effect R.State R.Iter := do
  let first ← R.begin
  advanceN R n first

/-- The subtraction is one of unsigned numbers; there must be `n` elements. -/
def dropExactlySize (n : Nat) : Effect R.State Nat := do
  let s ← R.size
  Effect.require (n ≤ s)
  pure (s - n)

def dropExactly (n : Nat) : RangeModel α :=
  suffixView R (!R.caps.randomAccess) (dropExactlyFirst R n) (ifSized R (dropExactlySize R n))
    false

/-- Not a sized range, whatever its base is. -/
def dropWhile (pred : α → Bool) : RangeModel α :=
  suffixView R true (findIfNot R fuel pred) none true

/-- `prev_or_zero_(size)`. -/
def tailSize : Effect R.State Nat := do
  let n ← R.size
  pure (if n = 0 then 0 else n - 1)

def tail : RangeModel α :=
  suffixView R false (dropFirst R fuel 1) (ifSized R (tailSize R)) false

end

section
variable {R : RangeModel α} {xs : List α} {Inv : Phase → R.State → Prop}
  {At : Nat → R.Iter → Prop} {AtEnd : R.Sent → Prop} {fuel lo : Nat}

theorem suffix_phase {β ι : Type} (h : Presents R xs Inv At AtEnd) {First : ι → Prop}
    {m : Effect R.State β} {Q : β → Prop} (hm : ∀ phase, Gives (Inv phase) m Q) (phase : Phase) :
    Gives (OverCache Inv First phase) (Effect.onFst m) Q := by
  cases phase with
  | idle => exact (hm .idle).caching (hm .live) h.idle
  | live => exact Gives.over (hm .live)

theorem suffixBegin_yields {first : Effect R.State R.Iter} {First : R.Iter → Prop}
    (hfirst : Yields (Inv .idle) first (Inv .live) First) (memoise : Bool) :
    Yields (OverCache Inv First .idle) (suffixBegin R memoise first) (OverCache Inv First .live)
      First := by
  unfold suffixBegin
  split
  · exact hfirst.memo.mono (fun s hs => ⟨hs.1, hs.2.cacheOf⟩) fun _ hc => hc
  · exact hfirst.caching

/-- From the position of the first iterator on, the base's positions are the view's. -/
theorem suffixView_presents (h : Presents R xs Inv At AtEnd) (hlo : lo ≤ xs.length)
    {memoise disable : Bool} {first : Effect R.State R.Iter} {own : Option (Effect R.State Nat)}
    (hfirst : Yields (Inv .idle) first (Inv .live) (At lo))
    (hsize : ∀ size, own = some size → ∀ phase, Gives (Inv phase) size (· = xs.length - lo)) :
    Presents (suffixView R memoise first own disable) (xs.drop lo) (OverCache Inv (At lo))
      (fun i c => At (lo + i) c) AtEnd where
  fresh := caching_of_empty h.fresh
  idle _ hs := caching_of_both h.idle hs
  le hc := by
    have hle := h.le hc
    rw [List.length_drop]
    omega
  begin := suffixBegin_yields hfirst memoise
  end_ := suffix_phase h h.end_
  endLive hcommon hbidir := (h.endLive hcommon hbidir).caching
  asIter hcommon e he := by
    obtain ⟨c, hc, hat⟩ := h.asIter hcommon he
    refine ⟨c, hc, ?_⟩
    rwa [List.length_drop, Nat.add_sub_of_le hlo]
  read hc hx := Gives.over (h.read hc (by rwa [List.getElem?_drop] at hx))
  next hc hi := by
    rw [List.length_drop] at hi
    exact Gives.over (h.next hc (Nat.add_lt_of_lt_sub' hi))
  prev hbidir i c hc := Gives.over (h.prev hbidir hc)
  equal hc hd := Gives.over ((h.equal hc hd).mono fun b hb =>
    hb.trans (decide_eq_decide.mpr (Nat.add_left_cancel_iff)))
  reached hc he := Gives.over ((h.reached hc he).mono fun b hb =>
    hb.trans (decide_eq_decide.mpr (by rw [List.length_drop]; omega)))
  advance hrandom i j n c hc hn hj := Gives.over (h.advance hrandom hc
    (by omega) (by rw [List.length_drop] at hj; omega))
  distanceTo hsized i j c d hc hd :=
    Gives.over ((h.distanceTo hsized hc hd).mono fun n hn => by omega)
  distanceToEnd hsized i c e hc he := Gives.over ((h.distanceToEnd hsized hc he).mono fun n hn => by
    rw [List.length_drop]
    omega)
  size hsized phase := by
    rw [List.length_drop]
    cases own with
    | some size => exact suffix_phase h (hsize size rfl) phase
    | none =>
      have hends : R.caps.sizedSentinel = true := (Bool.and_eq_true_iff.mp hsized).2
      have hrun := sizeByEnds_yields (n := xs.length - lo) (suffixBegin_yields hfirst memoise)
        (suffix_phase h h.end_ .idle) fun c e hc he => by
          apply Gives.over
          exact (h.distanceToEnd hends hc he).mono fun n hn => by omega
      have hidle : ∀ s, OverCache Inv (At lo) .live s → OverCache Inv (At lo) .idle s :=
        fun _ hs => caching_of_both h.idle hs
      cases phase with
      | idle => exact hrun.mono hidle fun _ hn => hn
      | live => exact hrun.weaken hidle
  jumpHook hhook i j n c hc hn hj hback := by
    obtain ⟨base, hbase, rfl⟩ := Option.map_eq_some_iff.mp hhook
    exact Gives.over (h.jumpHook hbase hc (by omega) (by rw [List.length_drop] at hj; omega) hback)

theorem ifSized_eq_some {own size : Effect R.State Nat} (h : ifSized R own = some size) :
    R.caps.sized = true ∧ own = size := by
  unfold ifSized at h
  split at h
  next hsized => exact ⟨hsized, Option.some.inj h⟩
  next => cases h

theorem dropFirst_yields (h : Presents R xs Inv At AtEnd) (hfuel : xs.length < fuel) (n : Nat) :
    Yields (Inv .idle) (dropFirst R fuel n) (Inv .live) (At (min n xs.length)) := by
  apply h.begin.bind
  intro c hc
  apply (h.end_ .live).bind
  intro e he
  have hnext := nextEnd_gives h (n := n) hc he hfuel
  rwa [Nat.zero_add] at hnext

theorem lawful_drop (h : Lawful R xs) (hfuel : xs.length < fuel) (n : Nat) :
    Lawful (drop R fuel n) (xs.drop n) := by
  obtain ⟨Inv, At, AtEnd, h⟩ := h
  rw [List.drop_eq_drop_min]
  refine ⟨_, _, _, suffixView_presents h (Nat.min_le_right n _) (dropFirst_yields h hfuel n) ?_⟩
  intro size hown phase
  obtain ⟨hsized, rfl⟩ := ifSized_eq_some hown
  apply (h.size hsized phase).bind
  rintro s rfl
  apply Gives.pure
  split <;> omega

theorem lawful_tail (h : Lawful R xs) (hfuel : xs.length < fuel) :
    Lawful (tail R fuel) xs.tail := by
  obtain ⟨Inv, At, AtEnd, h⟩ := h
  rw [← List.drop_one, List.drop_eq_drop_min]
  refine ⟨_, _, _, suffixView_presents h (Nat.min_le_right 1 _) (dropFirst_yields h hfuel 1) ?_⟩
  intro size hown phase
  obtain ⟨hsized, rfl⟩ := ifSized_eq_some hown
  apply (h.size hsized phase).bind
  rintro s rfl
  apply Gives.pure
  split <;> omega

theorem lawful_dropExactly (h : Lawful R xs) {n : Nat} (hn : n ≤ xs.length) :
    Lawful (dropExactly R n) (xs.drop n) := by
  obtain ⟨Inv, At, AtEnd, h⟩ := h
  have hfirst : Yields (Inv .idle) (dropExactlyFirst R n) (Inv .live) (At n) := by
    apply h.begin.bind
    intro c hc
    exact advanceN_gives h hc (by omega) hn (.inl (by omega))
  refine ⟨_, _, _, suffixView_presents h hn hfirst ?_⟩
  intro size hown phase
  obtain ⟨hsized, rfl⟩ := ifSized_eq_some hown
  apply (h.size hsized phase).bind
  rintro s rfl
  apply (Gives.require hn).bind
  intro _ _
  exact .pure rfl

theorem lawful_dropWhile (h : Lawful R xs) (hfuel : xs.length < fuel) (pred : α → Bool) :
    Lawful (dropWhile R fuel pred) (xs.dropWhile pred) := by
  obtain ⟨Inv, At, AtEnd, h⟩ := h
  rw [← drop_length_takeWhile]
  exact ⟨_, _, _, suffixView_presents h (List.takeWhile_sublist pred).length_le
    (findIfNot_yields h hfuel pred) nofun⟩

end

end EARanges.Adaptor
