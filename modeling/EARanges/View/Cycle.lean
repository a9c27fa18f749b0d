import EARanges.Support.Exec
import Mathlib.Data.Int.Order.Basic
import Mathlib.Tactic.Linarith
import Mathlib.Tactic.Ring

/-!
# `cycled_view`

view/cycle.hpp. An iterator of the base is its index, so `begin` is 0 and `end` the
number of elements. The cursor is the pair `(it_, n_)`. For a base without a common
end the view caches the end iterator once some cursor has found it; the cache is
shared by all cursors and threaded through every operation. `intmax_t` is read as
the integers: the view is infinite and the law below has no bound to respect.
-/
namespace EARanges.View
open EARanges.Support

/-- `explicit cycled_view(Rng rng)` expects a non-empty range. -/
structure CycledView (α : Type) where
  rng : List α
  common : Bool
  nonempty : rng ≠ []

/-- `non_propagating_cache<iterator_t<Rng>>`. -/
abbrev EndCache := Option Int

/-- `cycled_view::cursor<IsConst>`. -/
structure CycleCursor (isConst : Bool) where
  it : Int
  n : Int := 0
  deriving DecidableEq, Repr

namespace CycledView

variable {α : Type} {k : Bool}

/-- `ranges::end(rng_->rng_)`. -/
def last (v : CycledView α) : Int := v.rng.length

theorem last_pos (v : CycledView α) : 0 < v.last := by
  have := List.length_pos_of_ne_nil v.nonempty
  unfold last
  omega

/-- `get_end_` with `CanBeEmpty = false`. -/
def getEnd (v : CycledView α) (cache : EndCache) : Exec Int :=
  if v.common then .ok v.last
  else match cache with
    | some e => .ok e
    | none => .error .fault

/-- `get_end_` with `CanBeEmpty = true`: a missing end is found by
`ranges::next(it_, ranges::end(rng_->rng_))` and cached. -/
def getEndOrFind (v : CycledView α) (cache : EndCache) : Int × EndCache :=
  if v.common then (v.last, cache)
  else match cache with
    | some e => (e, some e)
    | none => (v.last, some v.last)

def setEnd (v : CycledView α) (cache : EndCache) (it : Int) : EndCache :=
  if v.common then cache
  else match cache with
    | some e => some e
    | none => some it

def beginCursor (_ : CycledView α) : CycleCursor k := { it := 0 }

def read (v : CycledView α) (c : CycleCursor k) : Option α :=
  if 0 ≤ c.it then v.rng[c.it.toNat]? else none

def equal (c pos : CycleCursor k) : Bool := c.n == pos.n && c.it == pos.it

def next (v : CycledView α) (cache : EndCache) (c : CycleCursor k) :
    Exec (EndCache × CycleCursor k) :=
  if c.it = v.last then .error .fault
  else if c.it + 1 = v.last then .ok (setEnd v cache (c.it + 1), { it := 0, n := c.n + 1 })
  else .ok (cache, { c with it := c.it + 1 })

def prev (v : CycledView α) (cache : EndCache) (c : CycleCursor k) :
    Exec (EndCache × CycleCursor k) :=
  if c.it = 0 then
    if 0 < c.n then do
      let e ← getEnd v cache
      .ok (cache, { it := e - 1, n := c.n - 1 })
    else .error .fault
  else .ok (cache, { c with it := c.it - 1 })

def advance (v : CycledView α) (cache : EndCache) (c : CycleCursor k) (n : Int) :
    Exec (EndCache × CycleCursor k) :=
  let first : Int := 0
  let (last, cache) := getEndOrFind v cache
  let dist := last - first
  let d := c.it - first
  let off := (d + n).tmod dist
  let n' := c.n + (d + n).tdiv dist
  if 0 ≤ n' then
    .ok (cache, { it := first + (if off < 0 then off + dist else off), n := n' })
  else .error .fault

def distanceTo (v : CycledView α) (cache : EndCache) (c that : CycleCursor k) : EndCache × Int :=
  let first : Int := 0
  let (last, cache) := getEndOrFind v cache
  let dist := last - first
  (cache, (that.n - c.n) * dist + (that.it - c.it))

/-! ## Cursors as positions -/

/-- The absolute position `n_ * L + (it_ - begin)`. -/
def position (v : CycledView α) (c : CycleCursor k) : Int := c.n * v.last + c.it

/-- What the cache may hold: nothing, or the end. -/
def CacheOk (v : CycledView α) (cache : EndCache) : Prop := cache = none ∨ cache = some v.last

/-- The invariant of a cursor: its iterator points into the base, its count is not
negative, and it cannot have left the first cycle without the end being cached. -/
structure Valid (v : CycledView α) (cache : EndCache) (c : CycleCursor k) : Prop where
  it_nonneg : 0 ≤ c.it
  it_lt : c.it < v.last
  n_nonneg : 0 ≤ c.n
  cacheOk : CacheOk v cache
  cached : v.common = false → 0 < c.n → cache = some v.last

theorem beginCursor_valid (v : CycledView α) {cache : EndCache} (h : CacheOk v cache) :
    Valid v cache (beginCursor v : CycleCursor k) :=
  ⟨Int.le_refl 0, v.last_pos, Int.le_refl 0, h,
    fun _ h0 => absurd h0 (Int.lt_irrefl 0)⟩

/-- An operation may fill the cache; cursors already around stay valid. -/
theorem Valid.mono {v : CycledView α} {cache cache' : EndCache} {c : CycleCursor k}
    (h : Valid v cache c) (hc : CacheOk v cache') (hkeep : cache = some v.last → cache' = cache) :
    Valid v cache' c :=
  ⟨h.it_nonneg, h.it_lt, h.n_nonneg, hc, fun hcom hn => by
    rw [hkeep (h.cached hcom hn), h.cached hcom hn]⟩

theorem Valid.position_nonneg {v : CycledView α} {cache : EndCache} {c : CycleCursor k}
    (h : Valid v cache c) : 0 ≤ position v c :=
  Int.add_nonneg (Int.mul_nonneg h.n_nonneg (Int.le_of_lt v.last_pos)) h.it_nonneg

theorem Valid.position_emod {v : CycledView α} {cache : EndCache} {c : CycleCursor k}
    (h : Valid v cache c) : position v c % v.last = c.it := by
  rw [position, Int.add_comm, Int.add_mul_emod_self_right, Int.emod_eq_of_lt h.it_nonneg h.it_lt]

theorem Valid.position_ediv {v : CycledView α} {cache : EndCache} {c : CycleCursor k}
    (h : Valid v cache c) : position v c / v.last = c.n := by
  rw [position, Int.add_comm, Int.add_mul_ediv_right _ _ (Int.ne_of_gt v.last_pos),
    Int.ediv_eq_zero_of_lt h.it_nonneg h.it_lt, Int.zero_add]

/-- A valid cursor is its position. -/
theorem Valid.ext {v : CycledView α} {cache cache' : EndCache} {c c' : CycleCursor k}
    (h : Valid v cache c) (h' : Valid v cache' c') (hp : position v c = position v c') :
    c = c' := by
  have hit := h.position_emod
  have hn := h.position_ediv
  rw [hp, h'.position_emod] at hit
  rw [hp, h'.position_ediv] at hn
  cases c
  cases c'
  simp_all

theorem getEnd_of_valid {v : CycledView α} {cache : EndCache} {c : CycleCursor k}
    (h : Valid v cache c) (hn : 0 < c.n) : getEnd v cache = .ok v.last := by
  cases hcom : v.common with
  | true => simp [getEnd, hcom]
  | false => simp [getEnd, hcom, h.cached hcom hn]

theorem getEndOrFind_last (v : CycledView α) {cache : EndCache} (h : CacheOk v cache) :
    (getEndOrFind v cache).1 = v.last := by
  unfold getEndOrFind
  rcases h with rfl | rfl <;> split <;> rfl

theorem getEndOrFind_cacheOk (v : CycledView α) {cache : EndCache} (h : CacheOk v cache) :
    CacheOk v (getEndOrFind v cache).2 := by
  unfold getEndOrFind
  rcases h with rfl | rfl <;> split <;> first | exact .inl rfl | exact .inr rfl

theorem getEndOrFind_keeps (v : CycledView α) {cache : EndCache} (h : cache = some v.last) :
    (getEndOrFind v cache).2 = cache := by
  unfold getEndOrFind
  subst h
  split <;> rfl

theorem getEndOrFind_cached (v : CycledView α) {cache : EndCache} (h : CacheOk v cache)
    (hcom : v.common = false) : (getEndOrFind v cache).2 = some v.last := by
  unfold getEndOrFind
  rcases h with rfl | rfl <;> simp [hcom]

/-- What every successful operation does to the cache. -/
structure CacheStep (v : CycledView α) (cache cache' : EndCache) : Prop where
  ok : CacheOk v cache'
  keeps : cache = some v.last → cache' = cache

theorem next_spec {v : CycledView α} {cache : EndCache} {c : CycleCursor k}
    (h : Valid v cache c) : ∃ cache' c', next v cache c = .ok (cache', c') ∧ Valid v cache' c' ∧
      CacheStep v cache cache' ∧ position v c' = position v c + 1 := by
  have hne : c.it ≠ v.last := Int.ne_of_lt h.it_lt
  unfold next
  rw [if_neg hne]
  by_cases hwrap : c.it + 1 = v.last
  · rw [if_pos hwrap]
    have hset : v.common = false → setEnd v cache (c.it + 1) = some v.last := by
      intro hcom
      rcases h.cacheOk with rfl | rfl <;> simp [setEnd, hcom, hwrap]
    have hok : CacheOk v (setEnd v cache (c.it + 1)) := by
      cases hcom : v.common with
      | true => simpa [setEnd, hcom] using h.cacheOk
      | false => exact .inr (hset hcom)
    refine ⟨_, _, rfl, ⟨Int.le_refl 0, v.last_pos, ?_, hok, fun hcom _ => hset hcom⟩, ⟨hok, ?_⟩, ?_⟩
    · exact Int.add_nonneg h.n_nonneg (by decide)
    · intro hsome
      subst hsome
      unfold setEnd
      split <;> rfl
    · simp only [position]
      linarith
  · rw [if_neg hwrap]
    have hlt := h.it_lt
    have h0 := h.it_nonneg
    refine ⟨_, _, rfl, ⟨by dsimp only; omega, by dsimp only; omega, h.n_nonneg, h.cacheOk,
      h.cached⟩, ⟨h.cacheOk, fun _ => rfl⟩, ?_⟩
    simp only [position]
    ring

theorem prev_spec {v : CycledView α} {cache : EndCache} {c : CycleCursor k}
    (h : Valid v cache c) (hpos : 0 < position v c) :
    ∃ cache' c', prev v cache c = .ok (cache', c') ∧ Valid v cache' c' ∧
      CacheStep v cache cache' ∧ position v c' = position v c - 1 := by
  have hlast := v.last_pos
  unfold prev
  by_cases hit : c.it = 0
  · have hn : 0 < c.n := by
      have h0 := h.n_nonneg
      rcases Int.lt_or_eq_of_le h0 with hlt | heq
      · exact hlt
      · rw [position, hit, ← heq] at hpos
        simp at hpos
    rw [if_pos hit, if_pos hn, getEnd_of_valid h hn]
    refine ⟨_, _, rfl, ⟨by dsimp only; omega, by dsimp only; omega, by dsimp only; omega, h.cacheOk,
      fun hcom _ => h.cached hcom hn⟩, ⟨h.cacheOk, fun _ => rfl⟩, ?_⟩
    simp only [position, hit]
    ring
  · rw [if_neg hit]
    have hlt := h.it_lt
    have h0 := h.it_nonneg
    refine ⟨_, _, rfl, ⟨by dsimp only; omega, by dsimp only; omega, h.n_nonneg, h.cacheOk,
      h.cached⟩, ⟨h.cacheOk, fun _ => rfl⟩, ?_⟩
    simp only [position]
    ring

/-- A jump by `n` from `it` crosses the start of its cycle backwards without landing
on a cycle start, so that the truncating remainder comes out negative. -/
def CrossesBack (v : CycledView α) (it n : Int) : Prop := ¬ (0 ≤ it + n ∨ v.last ∣ it + n)

instance (v : CycledView α) (it n : Int) : Decidable (CrossesBack v it n) :=
  inferInstanceAs (Decidable (¬ _))

/-- `advance` wraps the iterator correctly but counts one cycle too many when it
crosses backwards. -/
theorem advance_spec {v : CycledView α} {cache : EndCache} {c : CycleCursor k}
    (h : Valid v cache c) {n : Int} (hn : 0 ≤ position v c + n) :
    ∃ cache' c', advance v cache c n = .ok (cache', c') ∧ Valid v cache' c' ∧
      CacheStep v cache cache' ∧ c'.it = (c.it + n) % v.last ∧
      position v c' = position v c + n + if CrossesBack v c.it n then v.last else 0 := by
  have hlast := v.last_pos
  have hmod0 := Int.emod_nonneg (c.it + n) (Int.ne_of_gt hlast)
  have hmodlt := Int.emod_lt_of_pos (c.it + n) hlast
  have hdm := Int.mul_ediv_add_emod (c.it + n) v.last
  have hdiv : (c.it + n).tdiv v.last =
      (c.it + n) / v.last + if CrossesBack v c.it n then 1 else 0 := by
    rw [Int.tdiv_eq_ediv, Int.sign_eq_one_of_pos hlast]
    unfold CrossesBack
    by_cases hc : 0 ≤ c.it + n ∨ v.last ∣ c.it + n <;> simp [hc]
  have hoff : (if (c.it + n).tmod v.last < 0 then (c.it + n).tmod v.last + v.last
      else (c.it + n).tmod v.last) = (c.it + n) % v.last := by
    rw [Int.tmod_eq_emod]
    have habs : ((v.last.natAbs : Nat) : Int) = v.last := Int.natAbs_of_nonneg (Int.le_of_lt hlast)
    by_cases hc : 0 ≤ c.it + n ∨ v.last ∣ c.it + n
    · rw [if_pos hc, Int.natCast_zero, Int.sub_zero, if_neg (Int.not_lt.mpr hmod0)]
    · rw [if_neg hc, habs, if_pos (by omega)]
      omega
  -- the count after the jump, with and without the extra cycle
  have hcount : 0 ≤ c.n + (c.it + n) / v.last := by
    rw [position, Int.add_assoc, ← hdm] at hn
    have : 0 ≤ (c.n + (c.it + n) / v.last) * v.last + (c.it + n) % v.last := by linarith
    by_contra hneg
    have : (c.n + (c.it + n) / v.last) * v.last ≤ -1 * v.last :=
      Int.mul_le_mul_of_nonneg_right (by omega) (Int.le_of_lt hlast)
    omega
  have hcount' : 0 ≤ c.n + (c.it + n).tdiv v.last := by
    rw [hdiv]
    split <;> omega
  have hrun : advance v cache c n = .ok ((getEndOrFind v cache).2,
      { it := (c.it + n) % v.last, n := c.n + (c.it + n).tdiv v.last }) := by
    unfold advance
    have hfst := getEndOrFind_last v h.cacheOk
    generalize getEndOrFind v cache = found at hfst
    obtain ⟨e, cache'⟩ := found
    simp only at hfst
    subst hfst
    simp only [Int.sub_zero, Int.zero_add, hcount', if_true, hoff]
  refine ⟨_, _, hrun, ⟨hmod0, hmodlt, hcount', getEndOrFind_cacheOk v h.cacheOk,
    fun hcom _ => getEndOrFind_cached v h.cacheOk hcom⟩,
    ⟨getEndOrFind_cacheOk v h.cacheOk, getEndOrFind_keeps v⟩, rfl, ?_⟩
  simp only [position, hdiv]
  split <;> linarith

theorem distanceTo_eq {v : CycledView α} {cache : EndCache} (h : CacheOk v cache)
    (a b : CycleCursor k) : (distanceTo v cache a b).2 = position v b - position v a := by
  unfold distanceTo
  have hfst := getEndOrFind_last v h
  generalize getEndOrFind v cache = found at hfst
  obtain ⟨e, cache'⟩ := found
  simp only at hfst
  subst hfst
  simp only [position]
  ring

/-! ## Walks, runs and reachable cursors -/

/-- `count` calls of a single-step operation. -/
def stepMany (step : EndCache → CycleCursor k → Exec (EndCache × CycleCursor k)) :
    Nat → EndCache → CycleCursor k → Exec (EndCache × CycleCursor k)
  | 0, cache, c => .ok (cache, c)
  | count + 1, cache, c => do
    let (cache, c) ← step cache c
    stepMany step count cache c

/-- `n` calls of `next`, or `-n` calls of `prev`. -/
def walk (v : CycledView α) (cache : EndCache) (c : CycleCursor k) (n : Int) :
    Exec (EndCache × CycleCursor k) :=
  if 0 ≤ n then stepMany (next v) n.toNat cache c else stepMany (prev v) (-n).toNat cache c

theorem stepMany_next_spec {v : CycledView α} (count : Nat) {cache : EndCache} {c : CycleCursor k}
    (h : Valid v cache c) : ∃ cache' c', stepMany (next v) count cache c = .ok (cache', c') ∧
      Valid v cache' c' ∧ position v c' = position v c + count := by
  induction count generalizing cache c with
  | zero => exact ⟨cache, c, rfl, h, by simp⟩
  | succ count ih =>
    obtain ⟨cache₁, c₁, hrun, hvalid, _, hpos⟩ := next_spec h
    obtain ⟨cache₂, c₂, hrun₂, hvalid₂, hpos₂⟩ := ih hvalid
    refine ⟨cache₂, c₂, by simp [stepMany, hrun, hrun₂], hvalid₂, ?_⟩
    rw [hpos₂, hpos]
    push_cast
    ring

theorem stepMany_prev_spec {v : CycledView α} (count : Nat) {cache : EndCache} {c : CycleCursor k}
    (h : Valid v cache c) (hle : (count : Int) ≤ position v c) :
    ∃ cache' c', stepMany (prev v) count cache c = .ok (cache', c') ∧
      Valid v cache' c' ∧ position v c' = position v c - count := by
  induction count generalizing cache c with
  | zero => exact ⟨cache, c, rfl, h, by simp⟩
  | succ count ih =>
    obtain ⟨cache₁, c₁, hrun, hvalid, _, hpos⟩ := prev_spec h (by omega)
    obtain ⟨cache₂, c₂, hrun₂, hvalid₂, hpos₂⟩ := ih hvalid (by omega)
    refine ⟨cache₂, c₂, by simp [stepMany, hrun, hrun₂], hvalid₂, ?_⟩
    rw [hpos₂, hpos]
    push_cast
    ring

/-- Single steps realise the position law for every displacement. -/
theorem walk_spec {v : CycledView α} {cache : EndCache} {c : CycleCursor k}
    (h : Valid v cache c) {n : Int} (hn : 0 ≤ position v c + n) :
    ∃ cache' c', walk v cache c n = .ok (cache', c') ∧ Valid v cache' c' ∧
      position v c' = position v c + n := by
  unfold walk
  split
  next h0 =>
    obtain ⟨cache', c', hrun, hvalid, hpos⟩ := stepMany_next_spec n.toNat h
    exact ⟨cache', c', hrun, hvalid, by omega⟩
  next h0 =>
    obtain ⟨cache', c', hrun, hvalid, hpos⟩ := stepMany_prev_spec (-n).toNat h (by omega)
    exact ⟨cache', c', hrun, hvalid, by omega⟩

inductive CycleOp where
  | next | prev | advance (n : Int)
  deriving DecidableEq, Repr

def CycleOp.displacement : CycleOp → Int
  | .next => 1
  | .prev => -1
  | .advance n => n

def apply (v : CycledView α) (cache : EndCache) (c : CycleCursor k) :
    CycleOp → Exec (EndCache × CycleCursor k)
  | .next => next v cache c
  | .prev => prev v cache c
  | .advance n => advance v cache c n

/-- The step's own precondition: no operation moves before position 0. -/
def Admissible (v : CycledView α) (c : CycleCursor k) (op : CycleOp) : Prop :=
  0 ≤ position v c + op.displacement

instance (v : CycledView α) (c : CycleCursor k) (op : CycleOp) : Decidable (Admissible v c op) :=
  inferInstanceAs (Decidable (0 ≤ position v c + op.displacement))

/-- A step that is not a jump crossing its cycle's start. -/
def StaysForward (v : CycledView α) (c : CycleCursor k) : CycleOp → Prop
  | .advance n => ¬ CrossesBack v c.it n
  | _ => True

theorem apply_spec {v : CycledView α} {cache : EndCache} {c : CycleCursor k}
    (h : Valid v cache c) (op : CycleOp) (hop : Admissible v c op) :
    ∃ cache' c', apply v cache c op = .ok (cache', c') ∧ Valid v cache' c' ∧
      CacheStep v cache cache' ∧
      (StaysForward v c op → position v c' = position v c + op.displacement) := by
  cases op with
  | next =>
    obtain ⟨cache', c', hrun, hvalid, hstep, hpos⟩ := next_spec h
    exact ⟨cache', c', hrun, hvalid, hstep, fun _ => hpos⟩
  | prev =>
    simp only [Admissible, CycleOp.displacement] at hop
    obtain ⟨cache', c', hrun, hvalid, hstep, hpos⟩ := prev_spec h (by omega)
    exact ⟨cache', c', hrun, hvalid, hstep, fun _ => hpos⟩
  | advance n =>
    have hn : 0 ≤ position v c + n := hop
    obtain ⟨cache', c', hrun, hvalid, hstep, _, hpos⟩ := advance_spec h hn
    refine ⟨cache', c', hrun, hvalid, hstep, fun hstay => ?_⟩
    have hno : ¬ CrossesBack v c.it n := hstay
    rw [hpos, if_neg hno, Int.add_zero]
    rfl

/-- The cursors obtained so far over one view, together with the cache they share.
Every earlier cursor stays available, as a copied iterator does. -/
inductive Reachable (v : CycledView α) : EndCache → List (CycleCursor k) → Prop
  | start : Reachable v none []
  | begin {cache : EndCache} {cs : List (CycleCursor k)} :
      Reachable v cache cs → Reachable v cache (beginCursor v :: cs)
  | step {cache cache' : EndCache} {cs : List (CycleCursor k)} {c c' : CycleCursor k}
      (op : CycleOp) : Reachable v cache cs → c ∈ cs → Admissible v c op →
      apply v cache c op = .ok (cache', c') → Reachable v cache' (c' :: cs)

theorem Reachable.valid {v : CycledView α} {cache : EndCache} {cs : List (CycleCursor k)}
    (h : Reachable v cache cs) : CacheOk v cache ∧ ∀ c ∈ cs, Valid v cache c := by
  induction h with
  | start => exact ⟨.inl rfl, fun c hc => by cases hc⟩
  | begin _ ih =>
    refine ⟨ih.1, fun c hc => ?_⟩
    rcases List.mem_cons.mp hc with rfl | hc
    · exact beginCursor_valid v ih.1
    · exact ih.2 c hc
  | step op _ hmem hop hrun ih =>
    obtain ⟨cache', c', hrun', hvalid, hstep, _⟩ := apply_spec (ih.2 _ hmem) op hop
    rw [hrun] at hrun'
    cases hrun'
    refine ⟨hstep.ok, fun c hc => ?_⟩
    rcases List.mem_cons.mp hc with rfl | hc
    · exact hvalid
    · exact (ih.2 c hc).mono hstep.ok hstep.keeps

/-- A run of operations on one cursor. -/
def runOps (v : CycledView α) : List CycleOp → EndCache → CycleCursor k →
    Exec (EndCache × CycleCursor k)
  | [], cache, c => .ok (cache, c)
  | op :: ops, cache, c => do
    let (cache, c) ← apply v cache c op
    runOps v ops cache c

/-- Along a run, every step meets the condition at the cursor it is applied to. -/
def RunOk (v : CycledView α) : List CycleOp → EndCache → CycleCursor k → Prop
  | [], _, _ => True
  | op :: ops, cache, c => Admissible v c op ∧ StaysForward v c op ∧
    ∀ cache' c', apply v cache c op = .ok (cache', c') → RunOk v ops cache' c'

theorem runOps_position {v : CycledView α} (ops : List CycleOp) {cache : EndCache}
    {c : CycleCursor k} (h : Valid v cache c) (hok : RunOk v ops cache c) :
    ∃ cache' c', runOps v ops cache c = .ok (cache', c') ∧ Valid v cache' c' ∧
      position v c' = position v c + (ops.map CycleOp.displacement).sum := by
  induction ops generalizing cache c with
  | nil => exact ⟨cache, c, rfl, h, by simp⟩
  | cons op ops ih =>
    obtain ⟨hop, hstay, hrest⟩ := hok
    obtain ⟨cache₁, c₁, hrun, hvalid, _, hpos⟩ := apply_spec h op hop
    obtain ⟨cache₂, c₂, hrun₂, hvalid₂, hpos₂⟩ := ih hvalid (hrest cache₁ c₁ hrun)
    refine ⟨cache₂, c₂, by simp [runOps, hrun, hrun₂], hvalid₂, ?_⟩
    rw [hpos₂, hpos hstay, List.map_cons, List.sum_cons]
    ring

/-! ## The position law -/

/-- The jump by `n` from `c` obeys the position law. -/
structure AdvanceLaw (v : CycledView α) (cache : EndCache) (c : CycleCursor k) (n : Int) :
    Prop where
  lands : ∃ cache' c', advance v cache c n = .ok (cache', c') ∧
    position v c' = position v c + n
  steps : ∃ cache' cache'' c', advance v cache c n = .ok (cache', c') ∧
    walk v cache c n = .ok (cache'', c')
  difference : ∃ cache' c', advance v cache c n = .ok (cache', c') ∧
    (distanceTo v cache' c c').2 = n
  undone : ∃ cache' cache'' c', advance v cache c n = .ok (cache', c') ∧
    advance v cache' c' (-n) = .ok (cache'', c)

theorem advanceLaw_iff {v : CycledView α} {cache : EndCache} {c : CycleCursor k}
    (h : Valid v cache c) {n : Int} (hn : 0 ≤ position v c + n) :
    AdvanceLaw v cache c n ↔
      ¬ CrossesBack v c.it n ∧ ¬ CrossesBack v ((c.it + n) % v.last) (-n) := by
  have hlast := v.last_pos
  obtain ⟨cache', c', hrun, hvalid, hstep, hit, hpos⟩ := advance_spec h hn
  have hback (hok : ¬ CrossesBack v c.it n) := advance_spec (n := -n) hvalid
    (by rw [hpos, if_neg hok]; have := h.position_nonneg; omega)
  constructor
  · intro law
    have hok : ¬ CrossesBack v c.it n := by
      intro hcross
      obtain ⟨_, _, hrun', hpos'⟩ := law.lands
      rw [hrun] at hrun'
      cases hrun'
      rw [hpos, if_pos hcross] at hpos'
      omega
    refine ⟨hok, fun hcross => ?_⟩
    obtain ⟨_, _, _, hrun', hundo⟩ := law.undone
    rw [hrun] at hrun'
    cases hrun'
    obtain ⟨_, _, hrun'', _, _, _, hpos''⟩ := hback hok
    rw [hundo] at hrun''
    cases hrun''
    rw [hit, if_pos hcross, hpos, if_neg hok] at hpos''
    omega
  · rintro ⟨hok, hok'⟩
    rw [if_neg hok, Int.add_zero] at hpos
    refine ⟨⟨cache', c', hrun, hpos⟩, ?_, ⟨cache', c', hrun, ?_⟩, ?_⟩
    · obtain ⟨cache'', c'', hwalk, hvalid', hpos'⟩ := walk_spec h hn
      refine ⟨cache', cache'', c', hrun, ?_⟩
      rw [hwalk, hvalid.ext hvalid' (hpos.trans hpos'.symm)]
    · rw [distanceTo_eq hvalid.cacheOk, hpos]
      omega
    · obtain ⟨cache'', c'', hrun'', hvalid'', _, _, hpos''⟩ := hback hok
      rw [hit, if_neg hok', hpos] at hpos''
      refine ⟨cache', cache'', c', hrun, ?_⟩
      rw [hrun'', hvalid''.ext h (by omega)]

/-- Three elements behind a common end. -/
def abc : CycledView Nat := ⟨[10, 11, 12], true, by decide⟩

/-- The begin cursor and the one three steps on, at position 3. -/
theorem abc_reachable : Reachable abc none
    [(⟨0, 1⟩ : CycleCursor false), ⟨2, 0⟩, ⟨1, 0⟩, ⟨0, 0⟩] :=
  .step (c := ⟨2, 0⟩) .next (.step (c := ⟨1, 0⟩) .next (.step (c := ⟨0, 0⟩) .next
    (.begin .start) (by decide) (by decide) rfl) (by decide) (by decide) rfl)
    (by decide) (by decide) rfl

end CycledView

end EARanges.View
