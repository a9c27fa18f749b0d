import EARanges.Adaptor.FindIfNot
import Mathlib.Data.List.DropRight

/-!
# Views between two iterators of the base: `take`, `take_exactly`, `trim`

view/take.hpp and view/take_exactly.hpp over random access, and view/trim.hpp. Such a view ends
at an iterator even where its base ends at a sentinel.
-/
namespace EARanges.Adaptor
open EARanges.Support

variable {α : Type}

/-- The iterators stay as they are, and `end` is one of them. -/
def endedByIter (caps : Capabilities) (sized : Bool) : Capabilities where
  bidirectional := caps.bidirectional
  randomAccess := caps.randomAccess
  common := true
  sized := sized
  sizedIter := caps.sizedIter
  sizedSentinel := caps.sizedIter
  bidirectional_of_random := caps.bidirectional_of_random
  sizedIter_of_random := caps.sizedIter_of_random
  sentinel_of_common _ := rfl

/-- A view of what is between two iterators, with caches of type `κ`. -/
def windowView (R : RangeModel α) {κ : Type} (caches : κ)
    (begin end_ : Effect (R.State × κ) R.Iter) (sized : Bool) (size : Effect R.State Nat) :
    RangeModel α where
  State := R.State × κ
  Iter := R.Iter
  Sent := R.Iter
  caps := endedByIter R.caps sized
  fresh := (R.fresh, caches)
  begin := begin
  end_ := end_
  asIter it := .ok it
  read it := .onFst (R.read it)
  next it := .onFst (R.next it)
  prev it := .onFst (R.prev it)
  equal left right := .onFst (R.equal left right)
  reached it last := .onFst (R.equal it last)
  advance n it := .onFst (R.advance n it)
  distanceTo left right := .onFst (R.distanceTo left right)
  distanceToEnd it last := .onFst (R.distanceTo it last)
  size := .onFst size
  jumpHook := R.jumpHook.map fun hook n it => .onFst (hook n it)

section
variable (R : RangeModel α) (fuel : Nat)

/-- `min(size(base), count)`. -/
def takeSize (count : Nat) : Effect R.State Nat := do
  let n ← R.size
  pure (min n count)

/-- `begin(base) + n`. -/
def beginPlus (n : Int) : Effect R.State R.Iter := do
  let it ← R.begin
  R.advance n it

def takeRandomEnd (count : Nat) : Effect R.State R.Iter := do
  let n ← takeSize R count
  beginPlus R n

/-- `take_view` of a sized random-access range. -/
def takeRandom (count : Nat) : RangeModel α :=
  windowView R () (.onFst R.begin) (.onFst (takeRandomEnd R count)) true (takeSize R count)

/-- `take_exactly_view_` of a common random-access range. -/
def takeExactlyRandom (n : Nat) : RangeModel α :=
  windowView R () (.onFst R.begin) (.onFst (beginPlus R n)) true (pure n)

/-- `while(last != first) if(!pred(*--last)) { ++last; break; }`. -/
def trimLoop (pred : α → Bool) (first : R.Iter) : Nat → R.Iter → Effect R.State R.Iter
  | 0, _ => .ofExec (.error .fuel)
  | fuel + 1, last => do
    if ← R.equal last first then pure last
    else
      let last ← R.prev last
      if ← testAt R pred last then trimLoop pred first fuel last
      else R.next last

/-- The two caches of `trim_view`. -/
abbrev TrimState (R : RangeModel α) := R.State × Option R.Iter × Option R.Iter

/-- `trim_view::begin`. -/
def trimBegin (pred : α → Bool) : Effect (TrimState R) R.Iter := fun s => do
  let (it, base, begin_) ← Effect.memo (findIfNot R fuel pred) (s.1, s.2.1)
  .ok (it, base, begin_, s.2.2)

/-- `trim_view::end`. -/
def trimEnd (pred : α → Bool) : Effect (TrimState R) R.Iter := fun s =>
  match s.2.2 with
  | some last => .ok (last, s)
  | none => do
    let (first, s) ← trimBegin R fuel pred s
    let (last, base) ← R.endIter s.1
    let (last, base) ← trimLoop R pred first fuel last base
    .ok (last, base, s.2.1, some last)

/-- Not a sized range, whatever its base is. -/
def trim (pred : α → Bool) : RangeModel α :=
  windowView R (none, none) (trimBegin R fuel pred) (trimEnd R fuel pred) false Effect.fault

end

section
variable {R : RangeModel α} {xs : List α} {Inv : Phase → R.State → Prop}
  {At : Nat → R.Iter → Prop} {AtEnd : R.Sent → Prop} {fuel lo count : Nat}

/-- `count` positions of the base, from `lo` on. -/
def Within {ι : Type} (At : Nat → ι → Prop) (lo count i : Nat) (c : ι) : Prop :=
  At (lo + i) c ∧ i ≤ count

theorem windowView_presents (h : Presents R xs Inv At AtEnd) (hcount : lo + count ≤ xs.length)
    {κ : Type} {caches : κ} {begin end_ : Effect (R.State × κ) R.Iter} {sized : Bool}
    {size : Effect R.State Nat} {Idle : R.State × κ → Prop} {K : κ → Prop}
    (hfresh : Idle (R.fresh, caches)) (hidle : ∀ s, Both (Inv .live) K s → Idle s)
    (hbegin : Yields Idle begin (Both (Inv .live) K) (At lo))
    (hend : Yields Idle end_ (Both (Inv .live) K) (At (lo + count)))
    (hsize : sized = true → ∀ phase, Gives (Over Inv Idle K phase) (.onFst size) (· = count)) :
    Presents (windowView R caches begin end_ sized size) ((xs.drop lo).take count)
      (Over Inv Idle K) (Within At lo count) (At (lo + count)) := by
  have hlength : ((xs.drop lo).take count).length = count := by
    rw [List.length_take, List.length_drop]
    omega
  exact {
    fresh := hfresh
    idle := hidle
    le := fun hc => by
      rw [hlength]
      exact hc.2
    begin := hbegin.mono (fun _ hs => hs) fun c hc => ⟨hc, Nat.zero_le _⟩
    end_ := fun phase => by
      cases phase with
      | idle => exact hend.mono hidle fun _ hc => hc
      | live => exact hend.weaken hidle
    endLive := fun _ _ => hend
    asIter := fun _ e he => by
      rw [hlength]
      exact ⟨e, rfl, he, Nat.le_refl _⟩
    read := fun hc hx => by
      have hi := (List.getElem?_eq_some_iff.mp hx).1
      rw [hlength] at hi
      rw [List.getElem?_take_of_lt hi, List.getElem?_drop] at hx
      exact Gives.over (h.read hc.1 hx)
    next := fun hc hi => by
      rw [hlength] at hi
      exact Gives.over ((h.next hc.1 (by omega)).mono fun c' hc' => ⟨hc', hi⟩)
    prev := fun hbidir i c hc =>
      Gives.over ((h.prev hbidir hc.1).mono fun c' hc' => ⟨hc', Nat.le_of_succ_le hc.2⟩)
    equal := fun hc hd => Gives.over ((h.equal hc.1 hd.1).mono fun b hb =>
      hb.trans (decide_eq_decide.mpr Nat.add_left_cancel_iff))
    reached := fun hc he => by
      rw [hlength]
      exact Gives.over ((h.equal hc.1 he).mono fun b hb =>
        hb.trans (decide_eq_decide.mpr Nat.add_left_cancel_iff))
    advance := fun hrandom i j n c hc hn hj => by
      rw [hlength] at hj
      exact Gives.over ((h.advance hrandom hc.1 (j := lo + j) (by omega) (by omega)).mono
        fun c' hc' => ⟨hc', hj⟩)
    distanceTo := fun hsized i j c d hc hd =>
      Gives.over ((h.distanceTo hsized hc.1 hd.1).mono fun n hn => by omega)
    distanceToEnd := fun hsized i c e hc he => by
      rw [hlength]
      exact Gives.over ((h.distanceTo hsized hc.1 he).mono fun n hn => by omega)
    size := fun hsized phase => by
      rw [hlength]
      exact hsize hsized phase
    jumpHook := fun hhook i j n c hc hn hj hback => by
      obtain ⟨base, hbase, rfl⟩ := Option.map_eq_some_iff.mp hhook
      rw [hlength] at hj
      exact Gives.over ((h.jumpHook hbase hc.1 (j := lo + j) (by omega) (by omega) hback).mono
        fun c' hc' => ⟨hc', hj⟩) }

theorem takeSize_gives (h : Presents R xs Inv At AtEnd) (hsized : R.caps.sized = true)
    (count : Nat) (phase : Phase) :
    Gives (Inv phase) (takeSize R count) fun n => n = min xs.length count := by
  apply (h.size hsized phase).bind
  rintro n rfl
  exact .pure rfl

theorem beginPlus_yields (h : Presents R xs Inv At AtEnd) (hrandom : R.caps.randomAccess = true)
    {n : Nat} (hn : n ≤ xs.length) : Yields (Inv .idle) (beginPlus R n) (Inv .live) (At n) := by
  apply h.begin.bind
  intro c hc
  exact h.advance hrandom hc (by omega) hn

theorem lawful_takeRandom (h : Lawful R xs) (hrandom : R.caps.randomAccess = true)
    (hsized : R.caps.sized = true) (count : Nat) :
    Lawful (takeRandom R count) (xs.take count) := by
  obtain ⟨Inv, At, AtEnd, h⟩ := h
  have hend : Yields (Inv .idle) (takeRandomEnd R count) (Inv .live)
      (At (0 + min xs.length count)) := by
    rw [Nat.zero_add]
    apply Yields.bind (takeSize_gives h hsized count .idle)
    rintro n rfl
    exact beginPlus_yields h hrandom (Nat.min_le_left _ _)
  have htake : xs.take count = (xs.drop 0).take (min xs.length count) := by
    rw [List.drop_zero, Nat.min_comm, ← List.take_eq_take_min]
  rw [htake]
  exact ⟨_, _, _, windowView_presents (K := fun _ => True) h (by omega) ⟨h.fresh, trivial⟩
    (fun s hs => ⟨h.idle _ hs.1, trivial⟩) h.begin.onFst hend.onFst
    fun _ => Gives.uncached (takeSize_gives h hsized count)⟩

theorem lawful_takeExactlyRandom (h : Lawful R xs) (hrandom : R.caps.randomAccess = true) {n : Nat}
    (hn : n ≤ xs.length) : Lawful (takeExactlyRandom R n) (xs.take n) := by
  obtain ⟨Inv, At, AtEnd, h⟩ := h
  have hend : Yields (Inv .idle) (beginPlus R n) (Inv .live) (At (0 + n)) := by
    rw [Nat.zero_add]
    exact beginPlus_yields h hrandom hn
  rw [← List.drop_zero (l := xs)]
  exact ⟨_, _, _, windowView_presents (K := fun _ => True) h (by omega)
    ⟨h.fresh, trivial⟩ (fun s hs => ⟨h.idle _ hs.1, trivial⟩) h.begin.onFst hend.onFst
    fun _ => Gives.uncached fun phase => .pure rfl⟩

/-! ## `trim_view` -/

/-- Where the loop leaves off: behind the last element that fails the test. -/
theorem trimLoop_gives (h : Presents R xs Inv At AtEnd) (hbidir : R.caps.bidirectional = true)
    (pred : α → Bool) {first last : R.Iter} (fuel : Nat) {i : Nat} (hfirst : At lo first)
    (hlast : At (lo + i) last) (hfuel : i < fuel) :
    Gives (Inv .live) (trimLoop R pred first fuel last)
      (At (lo + (((xs.drop lo).take i).rdropWhile pred).length)) := by
  induction fuel generalizing i last with
  | zero => omega
  | succ fuel ih =>
    have hle := h.le hlast
    apply (h.equal hlast hfirst).bind
    rintro b rfl
    cases i with
    | zero =>
      rw [decide_eq_true (Nat.add_zero lo), if_pos rfl]
      exact .pure hlast
    | succ i =>
      have hnext : At (lo + i + 1) last := hlast
      have hlt : i < (xs.drop lo).length := by
        rw [List.length_drop]
        omega
      rw [decide_eq_false (by omega), if_neg Bool.false_ne_true,
        List.take_succ_eq_append_getElem hlt]
      apply (h.prev hbidir hnext).bind
      intro c hc
      apply (testAt_gives h pred hc (by omega)).bind
      rintro b rfl
      rw [List.getElem_drop]
      by_cases htest : pred xs[lo + i] = true
      · rw [if_pos htest, List.rdropWhile_concat_pos _ _ _ htest]
        exact ih hc (by omega)
      · rw [if_neg htest, List.rdropWhile_concat_neg _ _ _ htest, List.length_append,
          List.length_take_of_le (Nat.le_of_lt hlt)]
        change Gives (Inv .live) (R.next c) (At (lo + i + 1))
        exact h.next hc (by omega)

/-- The caches are filled once iterators have been handed out. -/
def TrimIdle (R : RangeModel α) (Inv : Phase → R.State → Prop) (First Last : R.Iter → Prop)
    (s : TrimState R) : Prop :=
  Caching (Inv .idle) (Inv .live) First (s.1, s.2.1) ∧ ∀ e, s.2.2 = some e → Inv .live s.1 ∧ Last e

def TrimCaches {ι : Type} (First Last : ι → Prop) (caches : Option ι × Option ι) : Prop :=
  CacheOf First caches.1 ∧ CacheOf Last caches.2

theorem trimBegin_yields (h : Presents R xs Inv At AtEnd) (hfuel : xs.length < fuel)
    (pred : α → Bool) {Last : R.Iter → Prop} :
    Yields (TrimIdle R Inv (At (xs.takeWhile pred).length) Last) (trimBegin R fuel pred)
      (Both (Inv .live) (TrimCaches (At (xs.takeWhile pred).length) Last))
      (At (xs.takeWhile pred).length) := by
  rintro ⟨base, begin_, end_⟩ ⟨hbegin, hend⟩
  obtain ⟨c, ⟨base', begin'⟩, hrun, hs, hc⟩ :=
    (findIfNot_yields h hfuel pred).memo (base, begin_) hbegin
  refine ⟨c, (base', begin', end_), ?_, ⟨hs.1, hs.2.cacheOf, fun e he => (hend e he).2⟩, hc⟩
  simp only [trimBegin, hrun]
  rfl

theorem trimEnd_yields (h : Presents R xs Inv At AtEnd) (hbidir : R.caps.bidirectional = true)
    (hcommon : R.caps.common = true) (hfuel : xs.length < fuel) (pred : α → Bool)
    {Last : R.Iter → Prop}
    (hLast : ∀ c, At ((xs.takeWhile pred).length +
      ((xs.dropWhile pred).rdropWhile pred).length) c → Last c) :
    Yields (TrimIdle R Inv (At (xs.takeWhile pred).length) Last) (trimEnd R fuel pred)
      (Both (Inv .live) (TrimCaches (At (xs.takeWhile pred).length) Last)) Last := by
  rintro ⟨base, begin_, end_⟩ hs
  cases end_ with
  | some last =>
    obtain ⟨hlive, hlast⟩ := hs.2 last rfl
    refine ⟨last, _, rfl, ⟨hlive, fun a ha => (hs.1.2 a ha).2, fun e he => ?_⟩, hlast⟩
    rwa [← Option.some.inj he]
  | none =>
    obtain ⟨first, ⟨base₁, caches⟩, hrun₁, ⟨hlive₁, hcaches⟩, hfirst⟩ :=
      trimBegin_yields h hfuel pred (base, begin_, none) hs
    obtain ⟨last, base₂, hrun₂, hlive₂, hlast⟩ :=
      h.endIter_gives hcommon .live base₁ hlive₁
    have hlength : (xs.takeWhile pred).length + (xs.dropWhile pred).length = xs.length := by
      rw [← List.length_append, List.takeWhile_append_dropWhile]
    rw [← hlength] at hlast
    obtain ⟨last', base₃, hrun₃, hlive₃, hlast'⟩ :=
      trimLoop_gives h hbidir pred fuel hfirst hlast (by omega) base₂ hlive₂
    rw [drop_length_takeWhile, List.take_length] at hlast'
    refine ⟨last', (base₃, caches.1, some last'), ?_, ⟨hlive₃, hcaches.1, fun e he => ?_⟩,
      hLast _ hlast'⟩
    · simp only [trimEnd, hrun₁, hrun₂, hrun₃, exec_bind_ok]
    · rw [← Option.some.inj he]
      exact hLast _ hlast'

/-- `trim_view` of any bidirectional common range. -/
theorem lawful_trim (h : Lawful R xs) (hbidir : R.caps.bidirectional = true)
    (hcommon : R.caps.common = true) (hfuel : xs.length < fuel) (pred : α → Bool) :
    Lawful (trim R fuel pred) ((xs.dropWhile pred).rdropWhile pred) := by
  obtain ⟨Inv, At, AtEnd, h⟩ := h
  have hprefix := List.rdropWhile_prefix pred (l := xs.dropWhile pred)
  have hcount := hprefix.length_le
  have hlength : (xs.takeWhile pred).length + (xs.dropWhile pred).length = xs.length := by
    rw [← List.length_append, List.takeWhile_append_dropWhile]
  have hlist : (xs.dropWhile pred).rdropWhile pred = (xs.drop (xs.takeWhile pred).length).take
      ((xs.dropWhile pred).rdropWhile pred).length := by
    rw [drop_length_takeWhile]
    exact List.prefix_iff_eq_take.mp hprefix
  rw [hlist]
  refine ⟨_, _, _, windowView_presents h (by omega) ?_ ?_ (trimBegin_yields h hfuel pred)
    (trimEnd_yields h hbidir hcommon hfuel pred fun c hc => hc) nofun⟩
  · exact ⟨caching_of_empty h.fresh, nofun⟩
  · rintro s ⟨hlive, hcaches⟩
    exact ⟨⟨h.idle _ hlive, fun a ha => ⟨hlive, hcaches.1 a ha⟩⟩,
      fun e he => ⟨hlive, hcaches.2 e he⟩⟩

end

end EARanges.Adaptor
