import EARanges.Iterator.RangeTraits
import EARanges.Support.Numbered

/-!
# `sliding_view`

view/sliding.hpp. An iterator of the base is its index. The three specialisations are
kept apart by `caching`: `cache::first` iterates over the last elements of the windows
and remembers where the first window ends, `cache::last` and `cache::none` iterate over
the first elements and differ in how the end is found. The memoised iterator is part of
the view and threaded through `begin` and `end`; it is filled by the first call that
needs it. A window is delivered as the list of its elements.
-/
namespace EARanges.View
open EARanges.Support EARanges.Iterator

/-- The base is a forward range; the constructor asserts `0 < n_`. -/
structure SlidingView (α : Type) where
  base : List α
  n : Nat
  n_pos : 0 < n
  traits : RangeTraits
  forward_base : traits.forward = true
  lang : IfConstexpr

/-- `enum class cache`. -/
inductive SlidingCache where
  | none | first | last
  deriving DecidableEq, Repr

/-- The base iterator and the iterator of the `trailing` companion, which
`trailing<Rng, true>` and the other two specialisations do without. -/
structure SlidingCursor where
  it : Nat
  trailing : Option Nat
  deriving DecidableEq, Repr

/-- `views::counted(it, n)`, all of it read. -/
def counted {α : Type} (l : List α) (it n : Nat) : Exec (List α) :=
  if it + n ≤ l.length then .ok ((l.drop it).take n) else .error .fault

namespace SlidingView

variable {α : Type}

def caching (t : RangeTraits) : SlidingCache :=
  if t.randomAccess && t.sized then .none
  else if t.bidirectional && t.common then .last
  else .first

/-- `ranges::size(base())`, the index of `ranges::end(base())`. -/
def length (v : SlidingView α) : Nat := v.base.length

def size (v : SlidingView α) : Nat :=
  let count := v.length
  if count < v.n then 0 else count - v.n + 1

/-! `trailing` -/

def trailingBegin (v : SlidingView α) : Option Nat :=
  if v.traits.randomAccess then none else some 0

def trailingGet (v : SlidingView α) (c : SlidingCursor) : Exec Nat :=
  match c.trailing with
  | none => jump (-((v.n : Int) - 1)) v.length c.it
  | some it => .ok it

def trailingNext (v : SlidingView α) : Option Nat → Exec (Option Nat)
  | none => .ok none
  | some it => do
    let it ← incrTo v.length it
    .ok (some it)

def trailingPrev (v : SlidingView α) : Option Nat → Exec (Option Nat)
  | none => .ok none
  | some it => do
    let it ← decr v.length it
    .ok (some it)

/-! The memoised iterators -/

def getFirst (v : SlidingView α) (cache : Option Nat) : Exec (Option Nat × Nat) :=
  memoised cache (nextEnd v.lang v.traits v.length 0 ((v.n : Int) - 1))

def getLast (v : SlidingView α) (cache : Option Nat) : Exec (Option Nat × Nat) :=
  memoised cache (prevTo v.lang v.traits v.length v.length ((v.n : Int) - 1) 0)

/-- `adaptor::end` of `cache::none`. -/
def noneEnd (v : SlidingView α) : Exec Nat :=
  let sz : Int := v.length
  let offset := if (v.n : Int) - 1 < sz then (v.n : Int) - 1 else sz
  jump (sz - offset) v.length 0

/-! The range -/

def beginCursor (v : SlidingView α) (cache : Option Nat) : Exec (Option Nat × SlidingCursor) :=
  match caching v.traits with
  | .first => do
    let (cache, first) ← getFirst v cache
    .ok (cache, ⟨first, trailingBegin v⟩)
  | .last => .ok (cache, ⟨0, none⟩)
  | .none => .ok (cache, ⟨0, none⟩)

/-- The end, of which a sentinel has the base iterator only. -/
def endCursor (v : SlidingView α) (cache : Option Nat) : Exec (Option Nat × SlidingCursor) :=
  match caching v.traits with
  | .first => .ok (cache, ⟨v.length, trailingBegin v⟩)
  | .last => do
    let (cache, last) ← getLast v cache
    .ok (cache, ⟨last, none⟩)
  | .none => do
    let last ← noneEnd v
    .ok (cache, ⟨last, none⟩)

def read (v : SlidingView α) (c : SlidingCursor) : Exec (List α) :=
  match caching v.traits with
  | .first => do
    let it ← trailingGet v c
    counted v.base it v.n
  | .last => counted v.base c.it v.n
  | .none => counted v.base c.it v.n

def next (v : SlidingView α) (c : SlidingCursor) : Exec SlidingCursor := do
  let it ← incrTo v.length c.it
  let trailing ← trailingNext v c.trailing
  .ok ⟨it, trailing⟩

def prev (v : SlidingView α) (c : SlidingCursor) : Exec SlidingCursor := do
  let trailing ← trailingPrev v c.trailing
  let it ← decr v.length c.it
  .ok ⟨it, trailing⟩

/-- A loop over the view keeps the end beside the cursor. -/
structure SlidingLoop where
  cursor : SlidingCursor
  last : SlidingCursor
  deriving DecidableEq, Repr

/-- A loop over the view, whose memoised iterator is `cache` by then. -/
def loop (v : SlidingView α) (cache : Option Nat) : Loop SlidingLoop (List α) where
  start := do
    let (cache, cursor) ← beginCursor v cache
    let (_, last) ← endCursor v cache
    .ok ⟨cursor, last⟩
  atEnd s := .ok (s.cursor.it == s.last.it)
  read s := read v s.cursor
  next s := do
    let cursor ← next v s.cursor
    .ok { s with cursor }

/-! ## What each strategy iterates over -/

/-- What the memoised iterator can be: calls of `begin` and `end` have filled it. -/
inductive Cached (v : SlidingView α) : Option Nat → Prop
  | fresh : Cached v none
  | afterBegin {cache cache' : Option Nat} {c : SlidingCursor} :
      Cached v cache → beginCursor v cache = .ok (cache', c) → Cached v cache'
  | afterEnd {cache cache' : Option Nat} {c : SlidingCursor} :
      Cached v cache → endCursor v cache = .ok (cache', c) → Cached v cache'

/-- The windows of a list, from left to right. -/
def windows (n : Nat) (l : List α) : List (List α) :=
  (List.range (l.length + 1 - n)).map fun i => (l.drop i).take n

/-- The way from the last position to the begin crosses the begin: `end()` asks an
unsized iterator at the begin to step back. -/
def CrossesBegin (v : SlidingView α) : Prop :=
  caching v.traits = .last ∧ StepsBeforeBegin v.lang v.traits v.length (v.n - 1)

/-- The cursor of window `i`. -/
def cursorAt (v : SlidingView α) (i : Nat) : SlidingCursor :=
  match caching v.traits with
  | .first => ⟨min (v.n - 1) v.length + i, if v.traits.randomAccess then none else some i⟩
  | .last => ⟨i, none⟩
  | .none => ⟨i, none⟩

/-- What is left at the end of a traversal: the end itself, up to the companion. -/
def lastAt (v : SlidingView α) : SlidingCursor :=
  match caching v.traits with
  | .first => ⟨v.length, trailingBegin v⟩
  | .last => ⟨v.length + 1 - v.n, none⟩
  | .none => ⟨v.length + 1 - v.n, none⟩

theorem length_windows (n : Nat) (l : List α) : (windows n l).length = l.length + 1 - n := by
  rw [windows, List.length_map, List.length_range]

theorem windows_getElem? {n i : Nat} {l : List α} {x : List α} (h : (windows n l)[i]? = some x) :
    i < l.length + 1 - n ∧ x = (l.drop i).take n := by
  obtain ⟨hi, hx⟩ := List.getElem?_eq_some_iff.mp h
  rw [length_windows] at hi
  rw [← hx]
  simp only [windows, List.getElem_map, List.getElem_range, and_true]
  exact hi

theorem size_eq (v : SlidingView α) : size v = v.base.length + 1 - v.n := by
  have := v.n_pos
  unfold size length
  dsimp only
  split <;> omega

theorem getFirst_eq (v : SlidingView α) {cache : Option Nat}
    (h : cache = none ∨ cache = some (min (v.n - 1) v.length)) :
    getFirst v cache = .ok (some (min (v.n - 1) v.length), min (v.n - 1) v.length) := by
  have hn : (v.n : Int) - 1 = (v.n - 1 : Nat) := by have := v.n_pos; omega
  apply memoised_eq h
  rw [hn, nextEnd_eq (Nat.zero_le _), Nat.zero_add]

theorem getLast_eq (v : SlidingView α) {cache : Option Nat}
    (hok : ¬ StepsBeforeBegin v.lang v.traits v.length (v.n - 1))
    (h : cache = none ∨ cache = some (v.length + 1 - v.n)) :
    getLast v cache = .ok (some (v.length + 1 - v.n), v.length + 1 - v.n) := by
  have hpos := v.n_pos
  have hn : (v.n : Int) - 1 = (v.n - 1 : Nat) := by omega
  apply memoised_eq h
  rw [hn, prevTo_begin_eq hok]
  congr 1
  omega

theorem noneEnd_eq (v : SlidingView α) : noneEnd v = .ok (v.length + 1 - v.n) := by
  have hpos := v.n_pos
  simp only [noneEnd, jump]
  split
  · rw [if_pos (by omega)]
    congr 1
    omega
  · rw [if_pos (by omega)]
    congr 1
    omega

/-- The memoised iterator is the one its strategy computes. -/
def CacheOk (v : SlidingView α) (cache : Option Nat) : Prop :=
  cache = none ∨ (caching v.traits = .first ∧ cache = some (min (v.n - 1) v.length)) ∨
    (caching v.traits = .last ∧ cache = some (v.length + 1 - v.n))

theorem beginCursor_eq (v : SlidingView α) {cache : Option Nat} (h : CacheOk v cache) :
    ∃ cache', beginCursor v cache = .ok (cache', cursorAt v 0) ∧ CacheOk v cache' := by
  unfold beginCursor cursorAt
  cases hc : caching v.traits with
  | none => exact ⟨cache, rfl, h⟩
  | last => exact ⟨cache, rfl, h⟩
  | first =>
    have hcache : cache = none ∨ cache = some (min (v.n - 1) v.length) := by
      simpa [CacheOk, hc] using h
    refine ⟨some (min (v.n - 1) v.length), ?_, .inr (.inl ⟨hc, rfl⟩)⟩
    simp only [getFirst_eq v hcache, exec_bind_ok, Nat.add_zero, trailingBegin]

theorem endCursor_eq (v : SlidingView α) (hok : ¬ CrossesBegin v) {cache : Option Nat}
    (h : CacheOk v cache) :
    ∃ cache', endCursor v cache = .ok (cache', lastAt v) ∧ CacheOk v cache' := by
  unfold endCursor lastAt
  cases hc : caching v.traits with
  | none => exact ⟨cache, by simp only [noneEnd_eq, exec_bind_ok], h⟩
  | first => exact ⟨cache, rfl, h⟩
  | last =>
    have hcache : cache = none ∨ cache = some (v.length + 1 - v.n) := by
      simpa [CacheOk, hc] using h
    have hstays : ¬ StepsBeforeBegin v.lang v.traits v.length (v.n - 1) := fun h => hok ⟨hc, h⟩
    refine ⟨some (v.length + 1 - v.n), ?_, .inr (.inr ⟨hc, rfl⟩)⟩
    simp only [getLast_eq v hstays hcache, exec_bind_ok]

theorem Cached.ok {v : SlidingView α} (hok : ¬ CrossesBegin v) {cache : Option Nat}
    (h : Cached v cache) : CacheOk v cache := by
  induction h with
  | fresh => exact .inl rfl
  | afterBegin _ hrun ih =>
    obtain ⟨cache', hrun', hcache⟩ := beginCursor_eq v ih
    cases hrun.symm.trans hrun'
    exact hcache
  | afterEnd _ hrun ih =>
    obtain ⟨cache', hrun', hcache⟩ := endCursor_eq v hok ih
    cases hrun.symm.trans hrun'
    exact hcache

/-- A cursor in front of a window reads that window. -/
theorem read_cursorAt (v : SlidingView α) {i : Nat} (hi : i < v.length + 1 - v.n) :
    read v (cursorAt v i) = .ok ((v.base.drop i).take v.n) := by
  have hpos := v.n_pos
  have hcounted : counted v.base i v.n = .ok ((v.base.drop i).take v.n) :=
    if_pos (by simp only [length] at hi; omega)
  unfold read cursorAt
  cases hc : caching v.traits with
  | none => exact hcounted
  | last => exact hcounted
  | first =>
    simp only [trailingGet]
    cases hra : v.traits.randomAccess with
    | false => simpa using hcounted
    | true =>
      have hjump : jump (-((v.n : Int) - 1)) v.length (min (v.n - 1) v.length + i) = .ok i := by
        rw [jump, if_pos (by omega)]
        congr 1
        omega
      simp only [if_true, hjump, exec_bind_ok, hcounted]

theorem next_cursorAt (v : SlidingView α) {i : Nat} (hi : i < v.length + 1 - v.n) :
    next v (cursorAt v i) = .ok (cursorAt v (i + 1)) := by
  have hpos := v.n_pos
  have hincr : incrTo v.length i = .ok (i + 1) := incrTo_ok (by omega)
  unfold next cursorAt
  cases hc : caching v.traits with
  | none => simp only [hincr, exec_bind_ok, trailingNext]
  | last => simp only [hincr, exec_bind_ok, trailingNext]
  | first =>
    have hlead : incrTo v.length (min (v.n - 1) v.length + i) =
        .ok (min (v.n - 1) v.length + (i + 1)) := if_pos (by omega)
    simp only [hlead, exec_bind_ok]
    split <;> simp only [trailingNext, hincr, exec_bind_ok]

theorem prev_cursorAt (v : SlidingView α) {i : Nat} :
    prev v (cursorAt v (i + 1)) = .ok (cursorAt v i) := by
  have hdecr : decr v.length (i + 1) = .ok i := rfl
  unfold prev cursorAt
  cases hc : caching v.traits with
  | none => simp only [hdecr, exec_bind_ok, trailingPrev]
  | last => simp only [hdecr, exec_bind_ok, trailingPrev]
  | first =>
    have hlead : decr v.length (min (v.n - 1) v.length + (i + 1)) =
        .ok (min (v.n - 1) v.length + i) := if_pos (by omega)
    cases v.traits.randomAccess <;>
      simp only [Bool.false_eq_true, if_false, if_true, trailingPrev, hdecr, hlead, exec_bind_ok]

theorem cursorAt_it_eq_last (v : SlidingView α) {i : Nat} (hi : i ≤ v.length + 1 - v.n) :
    ((cursorAt v i).it == (lastAt v).it) = decide (i = v.length + 1 - v.n) := by
  have hpos := v.n_pos
  rw [Bool.eq_iff_iff, beq_iff_eq, decide_eq_true_eq]
  unfold cursorAt lastAt
  cases hc : caching v.traits with
  | none => exact Iff.rfl
  | last => exact Iff.rfl
  | first =>
    dsimp only
    omega

/-- The loop states in front of window `i`. -/
def LoopAt (v : SlidingView α) (i : Nat) (s : SlidingLoop) : Prop :=
  i ≤ v.length + 1 - v.n ∧ s = ⟨cursorAt v i, lastAt v⟩

theorem loop_numbers (v : SlidingView α) (hok : ¬ CrossesBegin v) {cache : Option Nat}
    (h : Cached v cache) : (loop v cache).Numbers (windows v.n v.base) (LoopAt v) := by
  refine ⟨⟨?_, ?_⟩, ?_, ?_⟩
  · obtain ⟨cache₁, hbegin, hcache⟩ := beginCursor_eq v (h.ok hok)
    obtain ⟨cache₂, hend, _⟩ := endCursor_eq v hok hcache
    refine ⟨⟨cursorAt v 0, lastAt v⟩, ?_, Nat.zero_le _, rfl⟩
    simp only [loop, hbegin, hend, exec_bind_ok]
  · rintro i s ⟨_, rfl⟩ hi
    rw [length_windows] at hi
    refine ⟨⟨cursorAt v (i + 1), lastAt v⟩, ?_, hi, rfl⟩
    simp only [loop, next_cursorAt v hi, exec_bind_ok]
  · rintro i s ⟨hi, rfl⟩
    rw [length_windows]
    exact congrArg Except.ok (cursorAt_it_eq_last v hi)
  · rintro i s x ⟨_, rfl⟩ hx
    obtain ⟨hi, rfl⟩ := windows_getElem? hx
    exact read_cursorAt v hi

/-! ## The windows law -/

/-- The past-the-end cursors: those a traversal ends with, and `end()` where it is an
iterator of a bidirectional view. -/
inductive PastEnd (v : SlidingView α) : SlidingCursor → Prop
  | stepped {cache : Option Nat} {s : SlidingLoop} : Cached v cache →
      (loop v cache).nth (windows v.n v.base).length = .ok s → PastEnd v s.cursor
  | returned {cache cache' : Option Nat} {c : SlidingCursor} : Cached v cache →
      caching v.traits ≠ .first → endCursor v cache = .ok (cache', c) → PastEnd v c

/-- The view is the sequence of the windows of its base, in both directions. -/
structure WindowsLaw (v : SlidingView α) : Prop where
  forward : ∀ cache, Cached v cache → (loop v cache).Delivers (windows v.n v.base)
  size_eq : size v = (windows v.n v.base).length
  backward : v.traits.bidirectional = true → ∀ c, PastEnd v c →
    Loop.collectBack (prev v) (read v) (size v) c = .ok (windows v.n v.base).reverse

theorem PastEnd.eq {v : SlidingView α} (hok : ¬ CrossesBegin v) {c : SlidingCursor}
    (h : PastEnd v c) : c = cursorAt v (v.length + 1 - v.n) := by
  cases h with
  | stepped hcache hrun =>
    obtain ⟨s', hrun', _, rfl⟩ := (loop_numbers v hok hcache).nth_eq (Nat.le_refl _)
    cases hrun.symm.trans hrun'
    rw [length_windows]
    rfl
  | returned hcache hne hrun =>
    obtain ⟨cache', hrun', _⟩ := endCursor_eq v hok (hcache.ok hok)
    cases hrun.symm.trans hrun'
    unfold lastAt cursorAt
    cases hc : caching v.traits with
    | first => exact absurd hc hne
    | none => rfl
    | last => rfl

theorem CrossesBegin.end_fault {v : SlidingView α} (h : CrossesBegin v) :
    endCursor v none = .error .fault := by
  obtain ⟨hc, hsteps⟩ := h
  have hcount : (v.n : Int) - 1 = (v.n - 1 : Nat) := by have := v.n_pos; omega
  unfold endCursor getLast memoised
  rw [hc, hcount, hsteps.fault]
  rfl

theorem CrossesBegin.not_law {v : SlidingView α} (h : CrossesBegin v) : ¬ WindowsLaw v := by
  intro law
  have hbegin : beginCursor v none = .ok (none, ⟨0, none⟩) := by
    simp only [beginCursor, h.1]
  have hstart : (loop v none).start = .error .fault := by
    simp only [loop, hbegin, exec_bind_ok, h.end_fault, exec_bind_error]
  exact Loop.not_delivers_of_start hstart (law.forward none .fresh)

/-- All three strategies present the same windows, except that `cache::last` must not
look for the last window of an empty list by stepping. -/
theorem slidingView_windows_iff (v : SlidingView α) : WindowsLaw v ↔ ¬ CrossesBegin v := by
  constructor
  · exact fun law hcross => hcross.not_law law
  · intro hok
    have hsize : size v = (windows v.n v.base).length := by rw [size_eq, length_windows]
    refine ⟨fun cache h => (loop_numbers v hok h).delivers, hsize, fun _ c hc => ?_⟩
    have hlast : c = cursorAt v (size v) := by rw [hc.eq hok, size_eq]; rfl
    have hread : ∀ i c x, c = cursorAt v i → (windows v.n v.base)[i]? = some x →
        read v c = .ok x := by
      rintro i _ x rfl hx
      obtain ⟨hi, rfl⟩ := windows_getElem? hx
      exact read_cursorAt v hi
    have hprev : ∀ i c, c = cursorAt v (i + 1) → i < (windows v.n v.base).length →
        ∃ c', prev v c = .ok c' ∧ c' = cursorAt v i := by
      rintro i _ rfl _
      exact ⟨_, prev_cursorAt v, rfl⟩
    rw [Loop.collectBack_eq hread hprev hlast (Nat.le_of_eq hsize),
      List.take_of_length_le (Nat.le_of_eq hsize.symm)]

/-- An empty `std::list`, to be viewed in windows of two. -/
def emptyList : SlidingView Nat where
  base := []
  n := 2
  n_pos := Nat.succ_pos _
  traits := .ofList
  forward_base := rfl
  lang := .cxx17

/-- `end()` decrements the begin of the empty list. -/
theorem emptyList_crosses : endCursor emptyList none = .error .fault ∧
    windows emptyList.n emptyList.base = [] ∧ ¬ WindowsLaw emptyList := by
  have hcross : CrossesBegin emptyList := ⟨rfl, ⟨rfl, rfl, rfl, by decide⟩⟩
  exact ⟨hcross.end_fault, rfl, hcross.not_law⟩

end SlidingView

end EARanges.View
