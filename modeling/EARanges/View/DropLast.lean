import EARanges.Iterator.RangeTraits
import EARanges.Support.InPlace
import EARanges.Support.Numbered

/-!
# `drop_last_view`

view/drop_last.hpp. The specialisation is chosen by `getMode`. `mode_bidi` iterates up
to an end iterator found once, `mode_forward` lets a probe run ahead, `mode_sized`
counts down. The memoised iterator (`end_` or `probe_begin`) is threaded through `begin`
and `end`.
-/
namespace EARanges.View
open EARanges.Support EARanges.Iterator

inductive ModeEnum where
  | bidi | forward | sized | invalid
  deriving DecidableEq, Repr

def getMode (t : RangeTraits) : ModeEnum :=
  if (t.randomAccess && t.sized) || (t.bidirectional && t.common) then .bidi
  else if t.sized then .sized
  else if t.forward then .forward
  else .invalid

/-- The constructors expect `n >= 0`; there is no view in `invalid` mode. -/
structure DropLastView (α : Type) where
  base : List α
  n : Nat
  traits : RangeTraits
  lang : IfConstexpr
  valid : getMode traits ≠ .invalid

/-- An iterator of the base, the adapted iterator with its `probe_`, or a
`counted_iterator`. -/
inductive DropLastCursor where
  | bidi (it : Nat)
  | forward (it probe : Nat)
  | sized (it : Nat) (cnt : Int)
  deriving DecidableEq, Repr

namespace DropLastView

variable {α : Type}

def length (v : DropLastView α) : Nat := v.base.length

def getSize (v : DropLastView α) : Nat :=
  let initialSize := v.length
  if initialSize > v.n then initialSize - v.n else 0

/-- The overload for sized random access ranges is preferred. -/
def getEnd (v : DropLastView α) : Exec Nat :=
  if v.traits.randomAccess && v.traits.sized then jump (getSize v) v.length 0
  else prevTo v.lang v.traits v.length v.length v.n 0

/-- `size()`, the same in every mode. -/
def size (v : DropLastView α) : Nat := getSize v

def beginCursor (v : DropLastView α) (cache : Option Nat) : Exec (Option Nat × DropLastCursor) :=
  match getMode v.traits with
  | .bidi => .ok (cache, .bidi 0)
  | .forward => do
    let (cache, probe) ← memoised cache (nextEnd v.lang v.traits v.length 0 v.n)
    .ok (cache, .forward 0 probe)
  | .sized => .ok (cache, .sized 0 (getSize v))
  | .invalid => .error .fault

/-- The end is an iterator, a sentinel of the base, or `default_sentinel`. -/
def endCursor (v : DropLastView α) (cache : Option Nat) : Exec (Option Nat × Option Nat) :=
  match getMode v.traits with
  | .bidi => do
    let (cache, last) ← memoised cache (getEnd v)
    .ok (cache, some last)
  | .forward => .ok (cache, some v.length)
  | .sized => .ok (cache, none)
  | .invalid => .error .fault

def atEnd (c : DropLastCursor) (last : Option Nat) : Bool :=
  match c with
  | .bidi it => some it == last
  | .forward _ probe => some probe == last
  | .sized _ cnt => cnt == 0

def read (v : DropLastView α) (c : DropLastCursor) : Exec α :=
  match c with
  | .bidi it => deref v.base it
  | .forward it _ => deref v.base it
  | .sized it cnt => if cnt > 0 then deref v.base it else .error .fault

def next (v : DropLastView α) (c : DropLastCursor) : Exec DropLastCursor :=
  match c with
  | .bidi it => do
    let it ← incrTo v.length it
    .ok (.bidi it)
  | .forward it probe => do
    let it ← incrTo v.length it
    let probe ← incrTo v.length probe
    .ok (.forward it probe)
  | .sized it cnt =>
    if cnt > 0 then do
      let it ← incrTo v.length it
      .ok (.sized it (cnt - 1))
    else .error .fault

/-- A loop over the view, whose memoised iterator is `cache` by then. -/
def loop (v : DropLastView α) (cache : Option Nat) :
    Loop (DropLastCursor × Option Nat) α where
  start := do
    let (cache, c) ← beginCursor v cache
    let (_, last) ← endCursor v cache
    .ok (c, last)
  atEnd s := .ok (atEnd s.1 s.2)
  read s := read v s.1
  next s := do
    let c ← next v s.1
    .ok (c, s.2)

/-! ## What each mode iterates over -/

/-- What the memoised iterator can be: calls of `begin` and `end` have filled it. -/
inductive Cached (v : DropLastView α) : Option Nat → Prop
  | fresh : Cached v none
  | afterBegin {cache cache' : Option Nat} {c : DropLastCursor} :
      Cached v cache → beginCursor v cache = .ok (cache', c) → Cached v cache'
  | afterEnd {cache cache' : Option Nat} {last : Option Nat} :
      Cached v cache → endCursor v cache = .ok (cache', last) → Cached v cache'

/-- The way from the end to the new end crosses the begin: an unsized iterator at the
begin is asked to step back. -/
def CrossesBegin (v : DropLastView α) : Prop :=
  getMode v.traits = .bidi ∧ (v.traits.randomAccess && v.traits.sized) = false ∧
    StepsBeforeBegin v.lang v.traits v.length v.n

/-- The cursor `i` elements on. -/
def cursorAt (v : DropLastView α) (i : Nat) : DropLastCursor :=
  match getMode v.traits with
  | .bidi => .bidi i
  | .forward => .forward i (min v.n v.length + i)
  | .sized => .sized i ((v.length - v.n - i : Nat) : Int)
  | .invalid => .bidi i

def lastAt (v : DropLastView α) : Option Nat :=
  match getMode v.traits with
  | .bidi => some (v.length - v.n)
  | .forward => some v.length
  | .sized => none
  | .invalid => none

/-- The memoised iterator is the one its mode computes. -/
def CacheOk (v : DropLastView α) (cache : Option Nat) : Prop :=
  cache = none ∨ (getMode v.traits = .bidi ∧ cache = some (v.length - v.n)) ∨
    (getMode v.traits = .forward ∧ cache = some (min v.n v.length))

theorem getSize_eq (v : DropLastView α) : getSize v = v.length - v.n := by
  unfold getSize
  dsimp only
  split <;> omega

theorem getEnd_eq (v : DropLastView α) (hmode : getMode v.traits = .bidi)
    (hok : ¬ CrossesBegin v) : getEnd v = .ok (v.length - v.n) := by
  unfold getEnd
  cases hra : v.traits.randomAccess && v.traits.sized with
  | true =>
    rw [if_pos rfl, getSize_eq, jump, if_pos (by omega)]
    congr 1
    omega
  | false =>
    rw [if_neg Bool.false_ne_true]
    exact prevTo_begin_eq fun h => hok ⟨hmode, hra, h⟩

theorem beginCursor_eq (v : DropLastView α) {cache : Option Nat} (h : CacheOk v cache) :
    ∃ cache', beginCursor v cache = .ok (cache', cursorAt v 0) ∧ CacheOk v cache' := by
  unfold beginCursor cursorAt
  cases hm : getMode v.traits with
  | bidi => exact ⟨cache, rfl, h⟩
  | sized => exact ⟨cache, by simp only [getSize_eq, Nat.sub_zero], h⟩
  | invalid => exact absurd hm v.valid
  | forward =>
    have hcache : cache = none ∨ cache = some (min v.n v.length) := by
      simpa [CacheOk, hm] using h
    have hprobe : nextEnd v.lang v.traits v.length 0 v.n = .ok (min v.n v.length) := by
      rw [nextEnd_eq (Nat.zero_le _), Nat.zero_add]
    refine ⟨some (min v.n v.length), ?_, .inr (.inr ⟨hm, rfl⟩)⟩
    simp only [memoised_eq hcache hprobe, exec_bind_ok, Nat.add_zero]

theorem endCursor_eq (v : DropLastView α) (hok : ¬ CrossesBegin v) {cache : Option Nat}
    (h : CacheOk v cache) :
    ∃ cache', endCursor v cache = .ok (cache', lastAt v) ∧ CacheOk v cache' := by
  unfold endCursor lastAt
  cases hm : getMode v.traits with
  | forward => exact ⟨cache, rfl, h⟩
  | sized => exact ⟨cache, rfl, h⟩
  | invalid => exact absurd hm v.valid
  | bidi =>
    have hcache : cache = none ∨ cache = some (v.length - v.n) := by
      simpa [CacheOk, hm] using h
    refine ⟨some (v.length - v.n), ?_, .inr (.inl ⟨hm, rfl⟩)⟩
    simp only [memoised_eq hcache (getEnd_eq v hm hok), exec_bind_ok]

theorem Cached.ok {v : DropLastView α} (hok : ¬ CrossesBegin v) {cache : Option Nat}
    (h : Cached v cache) : CacheOk v cache := by
  induction h with
  | fresh => exact .inl rfl
  | afterBegin _ hrun ih =>
    obtain ⟨cache', hrun', hcache⟩ := beginCursor_eq v ih
    cases hrun.symm.trans hrun'
    exact hcache
  | afterEnd _ hrun ih =>
    obtain ⟨cache', hrun', hcache⟩ := endCursor_eq v hok ih
    cases hrun.symm.trans hrun'
    exact hcache

theorem atEnd_cursorAt (v : DropLastView α) {i : Nat} (hi : i ≤ v.length - v.n) :
    atEnd (cursorAt v i) (lastAt v) = decide (i = v.length - v.n) := by
  rw [Bool.eq_iff_iff, decide_eq_true_eq]
  unfold cursorAt lastAt
  cases hm : getMode v.traits with
  | invalid => exact absurd hm v.valid
  | bidi => simp only [atEnd, beq_iff_eq, Option.some.injEq]
  | forward =>
    simp only [atEnd, beq_iff_eq, Option.some.injEq]
    omega
  | sized =>
    simp only [atEnd, beq_iff_eq]
    omega

theorem read_cursorAt (v : DropLastView α) {i : Nat} (hi : i < v.length - v.n) :
    read v (cursorAt v i) = deref v.base i := by
  unfold cursorAt
  cases hm : getMode v.traits with
  | bidi => rfl
  | forward => rfl
  | sized => exact if_pos (by omega)
  | invalid => exact absurd hm v.valid

theorem next_cursorAt (v : DropLastView α) {i : Nat} (hi : i < v.length - v.n) :
    next v (cursorAt v i) = .ok (cursorAt v (i + 1)) := by
  have hincr : incrTo v.length i = .ok (i + 1) := incrTo_ok (by omega)
  unfold cursorAt
  cases hm : getMode v.traits with
  | invalid => exact absurd hm v.valid
  | bidi => simp only [next, hincr, exec_bind_ok]
  | forward =>
    have hprobe : incrTo v.length (min v.n v.length + i) =
        .ok (min v.n v.length + (i + 1)) := if_pos (by omega)
    simp only [next, hincr, hprobe, exec_bind_ok]
  | sized =>
    simp only [next]
    rw [if_pos (by omega), hincr, exec_bind_ok]
    congr 2
    omega

/-- What the view keeps. -/
def kept (v : DropLastView α) : List α := v.base.take (v.base.length - v.n)

theorem length_kept (v : DropLastView α) : (kept v).length = v.length - v.n :=
  List.length_take_of_le (Nat.sub_le _ _)

/-- The loop states `i` elements on. -/
def LoopAt (v : DropLastView α) (i : Nat) (s : DropLastCursor × Option Nat) : Prop :=
  i ≤ v.length - v.n ∧ s = (cursorAt v i, lastAt v)

theorem loop_numbers (v : DropLastView α) (hok : ¬ CrossesBegin v) {cache : Option Nat}
    (h : Cached v cache) : (loop v cache).Numbers (kept v) (LoopAt v) := by
  refine ⟨⟨?_, ?_⟩, ?_, ?_⟩
  · obtain ⟨cache₁, hbegin, hcache⟩ := beginCursor_eq v (h.ok hok)
    obtain ⟨cache₂, hend, _⟩ := endCursor_eq v hok hcache
    refine ⟨(cursorAt v 0, lastAt v), ?_, Nat.zero_le _, rfl⟩
    simp only [loop, hbegin, hend, exec_bind_ok]
  · rintro i s ⟨_, rfl⟩ hi
    rw [length_kept] at hi
    refine ⟨(cursorAt v (i + 1), lastAt v), ?_, hi, rfl⟩
    simp only [loop, next_cursorAt v hi, exec_bind_ok]
  · rintro i s ⟨hi, rfl⟩
    rw [length_kept]
    exact congrArg Except.ok (atEnd_cursorAt v hi)
  · rintro i s x ⟨_, rfl⟩ hx
    have hi : i < v.length - v.n := by
      rw [← length_kept]
      exact (List.getElem?_eq_some_iff.mp hx).1
    have hkept : (kept v)[i]? = v.base[i]? := List.getElem?_take_of_lt hi
    have hderef : deref v.base i = .ok x := by rw [deref, ← hkept, hx]
    exact (read_cursorAt v hi).trans hderef

/-! ## The prefix law -/

/-- The view is its base without the last `n` elements, or all of them. -/
structure PrefixLaw (v : DropLastView α) : Prop where
  forward : ∀ cache, Cached v cache → (loop v cache).Delivers (kept v)
  size_eq : size v = (kept v).length

theorem CrossesBegin.not_law {v : DropLastView α} (h : CrossesBegin v) : ¬ PrefixLaw v := by
  intro law
  obtain ⟨hm, hra, hsteps⟩ := h
  have hend : getEnd v = .error .fault := by
    rw [getEnd, hra, if_neg Bool.false_ne_true, hsteps.fault]
  have hstart : (loop v none).start = .error .fault := by
    simp only [loop, beginCursor, endCursor, hm, memoised, hend, exec_bind_ok, exec_bind_error]
  exact Loop.not_delivers_of_start hstart (law.forward none .fresh)

/-- An empty `std::list` without its last element. -/
def emptyList : DropLastView Nat where
  base := []
  n := 1
  traits := .ofList
  lang := .cxx17
  valid := by decide

end DropLastView

end EARanges.View
