import EARanges.Algorithm.FindIf
import EARanges.Support.Numbered

/-!
# `split_when_view`

view/split_when.hpp, over a forward base whose iterators are indices. The inner range of a piece
and the increment of the outer iterator call the matcher independently: the former until
`search_pred` fails, the latter until it has found a match. After a match of length zero the flag
`zero_` makes either pass over the element there.
-/
namespace EARanges.View
open EARanges.Support EARanges.Algorithm

/-- `fun(cur, last)` for the end of this base. What it returns is a position in `[cur, last]`. -/
structure SplitWhenView (α : Type) where
  base : List α
  fun_ : Nat → Exec (Bool × Nat)
  within : ∀ cur ≤ base.length, ∃ p, fun_ cur = .ok p ∧ cur ≤ p.2 ∧ p.2 ≤ base.length

structure SplitWhenCursor where
  zero : Bool
  cur : Nat
  deriving DecidableEq, Repr

structure SearchPred where
  zero : Bool
  first : Nat
  deriving DecidableEq, Repr

namespace SplitWhenView

variable {α : Type}

/-- The index of `end(rng_)`. -/
def last (v : SplitWhenView α) : Nat := v.base.length

def searchPred (v : SplitWhenView α) (p : SearchPred) (cur : Nat) : Exec Bool :=
  if p.zero ∧ cur = p.first then .ok true
  else if cur ≠ v.last then do
    let m ← v.fun_ cur
    .ok !m.1
  else .ok false

/-- What `read` returns: `iota(cur_)`, taken while the predicate holds, and dereferenced. -/
def innerLoop (v : SplitWhenView α) (p : SearchPred) : Loop Nat α where
  start := .ok p.first
  atEnd it := do
    let b ← searchPred v p it
    .ok !b
  read := deref v.base
  next := incr v.base

def beginCursor (v : SplitWhenView α) : Exec SplitWhenCursor := do
  let p ← v.fun_ 0
  .ok ⟨p.1 && decide (0 = p.2), 0⟩

/-- `if(zero_) { zero_ = false; ++cur_; }`. -/
def bump (v : SplitWhenView α) (c : SplitWhenCursor) : Exec SplitWhenCursor :=
  if c.zero then do
    let cur ← incr v.base c.cur
    .ok ⟨false, cur⟩
  else .ok c

/-- The loop of `next`. -/
def nextLoop (v : SplitWhenView α) : Nat → SplitWhenCursor → Exec SplitWhenCursor
  | 0, _ => .error .fuel
  | fuel + 1, c =>
    if c.cur = v.last then .ok c
    else do
      let p ← v.fun_ c.cur
      if p.1 then .ok ⟨decide (c.cur = p.2), p.2⟩
      else
        let cur ← incr v.base c.cur
        nextLoop v fuel ⟨c.zero, cur⟩

def next (v : SplitWhenView α) (c : SplitWhenCursor) : Exec SplitWhenCursor :=
  if c.cur = v.last then .error .fault
  else do
    let c ← bump v c
    nextLoop v (v.last + 1) c

/-- A loop over the view. -/
def loop (v : SplitWhenView α) : Loop SplitWhenCursor SearchPred where
  start := beginCursor v
  atEnd c := .ok (decide (c.cur = v.last))
  read c := .ok ⟨c.zero, c.cur⟩
  next := next v

/-- `predicate_pred_`. -/
def predicatePred (pred : α → Bool) (base : List α) (cur : Nat) : Exec (Bool × Nat) := do
  let where_ ← findIfNot pred id base base.length (base.length + 1) cur
  .ok (decide (cur ≠ where_), where_)

theorem predicatePred_spec (pred : α → Bool) (base : List α) {cur : Nat}
    (hcur : cur ≤ base.length) :
    ∃ t, predicatePred pred base cur = .ok (decide (cur ≠ t), t) ∧ cur ≤ t ∧ t ≤ base.length ∧
      (∀ k x, cur ≤ k → k < t → base[k]? = some x → pred x = true) ∧
      (t < base.length → ∃ x, base[t]? = some x ∧ pred x = false) := by
  obtain ⟨t, hrun, hle, hlast, hbefore, hhere⟩ := findIf_spec (fun y => !pred y) id hcur
    (Nat.le_refl _) (by omega : base.length < cur + (base.length + 1))
  refine ⟨t, ?_, hle, hlast, fun k x hk hkt hx => ?_, fun hlt => ?_⟩
  · rw [predicatePred, findIfNot, hrun]
    rfl
  · simpa using hbefore k x hk hkt hx
  · obtain ⟨x, hx, hpred⟩ := hhere hlt
    exact ⟨x, hx, by simpa using hpred⟩

/-- The view of a predicate. Its matches are the runs of elements that satisfy it. -/
def ofPredicate (pred : α → Bool) (base : List α) : SplitWhenView α where
  base := base
  fun_ := predicatePred pred base
  within cur hcur := by
    obtain ⟨t, hrun, hle, hlast, _⟩ := predicatePred_spec pred base hcur
    exact ⟨_, hrun, hle, hlast⟩

/-! ## Pieces -/

/-- A piece from `inner.first` to `stop`, and the match from there to `after`. -/
structure Segment where
  inner : SearchPred
  stop : Nat
  after : Nat

def Segment.piece (v : SplitWhenView α) (s : Segment) : List α :=
  (v.base.drop s.inner.first).take (s.stop - s.inner.first)

def Segment.delimiter (v : SplitWhenView α) (s : Segment) : List α :=
  (v.base.drop s.stop).take (s.after - s.stop)

/-- The first match is at `stop`, the flag forbidding one at the first element. Without a match
`stop` is the end. -/
structure Matches (v : SplitWhenView α) (s : Segment) : Prop where
  le_stop : s.inner.first ≤ s.stop
  le_after : s.stop ≤ s.after
  le_last : s.after ≤ v.last
  forced : s.inner.zero = true → s.inner.first < s.stop
  before : ∀ k, s.inner.first ≤ k → k < s.stop →
    (s.inner.zero = true ∧ k = s.inner.first) ∨ ∃ pos, v.fun_ k = .ok (false, pos)
  here : s.stop = v.last ∨ v.fun_ s.stop = .ok (true, s.after)

variable {v : SplitWhenView α}

theorem Matches.atOnce {cur after : Nat} (hle : cur ≤ after) (hlast : after ≤ v.last)
    (here : cur = v.last ∨ v.fun_ cur = .ok (true, after)) :
    Matches v ⟨⟨false, cur⟩, cur, after⟩ where
  le_stop := Nat.le_refl cur
  le_after := hle
  le_last := hlast
  forced h := by cases h
  before k hk hkt := absurd hkt (Nat.not_lt.mpr hk)
  here := here

/-- One element more in front, which is passed over or does not match. -/
theorem Matches.later {zero : Bool} {cur stop after : Nat}
    (h : Matches v ⟨⟨false, cur + 1⟩, stop, after⟩)
    (hcur : zero = true ∨ ∃ pos, v.fun_ cur = .ok (false, pos)) :
    Matches v ⟨⟨zero, cur⟩, stop, after⟩ where
  le_stop := Nat.le_of_succ_le h.le_stop
  le_after := h.le_after
  le_last := h.le_last
  forced _ := h.le_stop
  before k hk hkt := by
    obtain hk | rfl := Nat.lt_or_eq_of_le hk
    · obtain ⟨hzero, _⟩ | hpos := h.before k hk hkt
      · cases hzero
      · exact .inr hpos
    · exact hcur.imp_left fun hzero => ⟨hzero, rfl⟩
  here := h.here

theorem nextLoop_spec (fuel cur : Nat) (hcur : cur ≤ v.last) (hfuel : v.last < cur + fuel) :
    ∃ stop after, Matches v ⟨⟨false, cur⟩, stop, after⟩ ∧
      nextLoop v fuel ⟨false, cur⟩ = .ok ⟨decide (stop < v.last ∧ stop = after), after⟩ := by
  induction fuel generalizing cur with
  | zero => omega
  | succ fuel ih =>
    rw [nextLoop]
    dsimp only
    by_cases hend : cur = v.last
    · rw [if_pos hend]
      refine ⟨cur, cur, .atOnce (Nat.le_refl _) hcur (.inl hend), ?_⟩
      rw [decide_eq_false (by omega)]
    · have hlt : cur < v.last := Nat.lt_of_le_of_ne hcur hend
      obtain ⟨⟨matched, pos⟩, hrun, hpos, hlast⟩ := v.within cur hcur
      rw [if_neg hend, hrun, exec_bind_ok]
      cases matched with
      | true =>
        refine ⟨cur, pos, .atOnce hpos hlast (.inr hrun), ?_⟩
        rw [if_pos rfl]
        simp only [hlt, true_and]
      | false =>
        have hincr : incr v.base cur = .ok (cur + 1) := incr_ok hlt
        obtain ⟨stop, after, hmatches, hloop⟩ := ih (cur + 1) hlt (by omega)
        rw [if_neg Bool.false_ne_true, hincr, exec_bind_ok]
        exact ⟨stop, after, hmatches.later (.inr ⟨pos, hrun⟩), hloop⟩

/-- The increment of the outer iterator goes behind the next match. -/
theorem next_spec {c : SplitWhenCursor} (hcur : c.cur < v.last) :
    ∃ stop after, Matches v ⟨⟨c.zero, c.cur⟩, stop, after⟩ ∧
      next v c = .ok ⟨decide (stop < v.last ∧ stop = after), after⟩ := by
  obtain ⟨zero, cur⟩ := c
  dsimp only at hcur
  rw [next, if_neg (Nat.ne_of_lt hcur)]
  cases zero with
  | false => exact nextLoop_spec (v.last + 1) cur (Nat.le_of_lt hcur) (by omega)
  | true =>
    have hincr : incr v.base cur = .ok (cur + 1) := incr_ok hcur
    obtain ⟨stop, after, hmatches, hloop⟩ := nextLoop_spec (v.last + 1) (cur + 1) hcur (by omega)
    rw [bump, if_pos rfl, hincr]
    exact ⟨stop, after, hmatches.later (.inl rfl), hloop⟩

/-- The inner predicate holds up to the match, and fails there. -/
theorem searchPred_eq {s : Segment} (h : Matches v s) {k : Nat} (hk : s.inner.first ≤ k)
    (hkt : k ≤ s.stop) : searchPred v s.inner k = .ok (decide (k < s.stop)) := by
  have hstop := Nat.le_trans h.le_after h.le_last
  rw [searchPred]
  obtain hlt | rfl := Nat.lt_or_eq_of_le hkt
  · rw [decide_eq_true hlt]
    by_cases hforced : s.inner.zero = true ∧ k = s.inner.first
    · rw [if_pos hforced]
    · obtain hzero | ⟨pos, hrun⟩ := h.before k hk hlt
      · exact absurd hzero hforced
      · rw [if_neg hforced, if_pos (by omega), hrun]
        rfl
  · have hforced : ¬(s.inner.zero = true ∧ s.stop = s.inner.first) := by
      rintro ⟨hzero, heq⟩
      have hpos := h.forced hzero
      omega
    rw [if_neg hforced, decide_eq_false (Nat.lt_irrefl _)]
    by_cases hend : s.stop = v.last
    · rw [if_neg (not_not_intro hend)]
    · obtain hlast | hrun := h.here
      · exact absurd hlast hend
      · rw [if_pos hend, hrun]
        rfl

theorem length_piece {s : Segment} (h : Matches v s) :
    (s.piece v).length = s.stop - s.inner.first := by
  have hstop := Nat.le_trans h.le_after h.le_last
  rw [Segment.piece, List.length_take, List.length_drop]
  unfold last at hstop
  omega

/-- An inner iterator is a position of the piece, or its end. -/
theorem innerLoop_numbers {s : Segment} (h : Matches v s) :
    (innerLoop v s.inner).Numbers (s.piece v)
      fun j it => it = s.inner.first + j ∧ j ≤ (s.piece v).length where
  start := ⟨s.inner.first, rfl, rfl, Nat.zero_le _⟩
  next := by
    rintro j _ ⟨rfl, _⟩ hj
    have hlength := length_piece h
    have hstop := Nat.le_trans h.le_after h.le_last
    exact ⟨s.inner.first + j + 1, incr_ok (by unfold last at hstop; omega), rfl, hj⟩
  atEnd := by
    rintro j _ ⟨rfl, hj⟩
    have hlength := length_piece h
    have hle := h.le_stop
    simp only [innerLoop, searchPred_eq h (Nat.le_add_right _ j) (by omega), exec_bind_ok]
    congr 1
    rw [Bool.eq_iff_iff, Bool.not_eq_true', decide_eq_false_iff_not, decide_eq_true_eq]
    omega
  read := by
    rintro j _ x ⟨rfl, _⟩ hx
    have hlt := (List.getElem?_eq_some_iff.mp hx).1
    rw [length_piece h] at hlt
    rw [Segment.piece, List.getElem?_take_of_lt hlt, List.getElem?_drop] at hx
    exact deref_of_some hx

/-- What the two do with a piece: the inner range reads it and ends at the match, which is the one
the outer iterator goes behind. -/
structure Agrees (v : SplitWhenView α) (s : Segment) : Prop where
  reads : (innerLoop v s.inner).Delivers (s.piece v)
  ends : (innerLoop v s.inner).nth (s.piece v).length = .ok s.stop
  next : next v ⟨s.inner.zero, s.inner.first⟩ =
    .ok ⟨decide (s.stop < v.last ∧ s.stop = s.after), s.after⟩

/-! ## The pieces of a run -/

/-- What a run of the outer iterator from a cursor goes over. -/
inductive Trace (v : SplitWhenView α) : SplitWhenCursor → List Segment → Prop
  | done {c : SplitWhenCursor} (hend : c.cur = v.last) : Trace v c []
  | step {c : SplitWhenCursor} {stop after : Nat} {segs : List Segment} (hcur : c.cur < v.last)
    (hmatches : Matches v ⟨⟨c.zero, c.cur⟩, stop, after⟩)
    (hnext : next v c = .ok ⟨decide (stop < v.last ∧ stop = after), after⟩)
    (hrest : Trace v ⟨decide (stop < v.last ∧ stop = after), after⟩ segs) :
    Trace v c (⟨⟨c.zero, c.cur⟩, stop, after⟩ :: segs)

/-- A bound on the pieces to come. Behind a match of length zero it does not count the empty
piece. -/
def remaining (v : SplitWhenView α) (c : SplitWhenCursor) : Nat :=
  2 * (v.last - c.cur) - if c.zero then 1 else 0

theorem remaining_lt {s : Segment} (h : Matches v s) (hfirst : s.inner.first < v.last) :
    remaining v ⟨decide (s.stop < v.last ∧ s.stop = s.after), s.after⟩ <
      remaining v ⟨s.inner.zero, s.inner.first⟩ := by
  have hstop := h.le_stop
  have hafter := h.le_after
  have hlast := h.le_last
  have hforced := h.forced
  rw [remaining, remaining]
  dsimp only
  cases hzero : s.inner.zero with
  | true =>
    have hpos := hforced hzero
    rw [if_pos rfl]
    split
    next => omega
    next hnot =>
      rw [decide_eq_true_eq] at hnot
      omega
  | false =>
    rw [if_neg Bool.false_ne_true]
    split
    next => omega
    next hnot =>
      rw [decide_eq_true_eq] at hnot
      omega

theorem exists_trace {c : SplitWhenCursor} (hcur : c.cur ≤ v.last) :
    ∃ segs, Trace v c segs ∧ segs.length ≤ remaining v c := by
  induction hmeasure : remaining v c using Nat.strongRecOn generalizing c with
  | ind m ih =>
    subst hmeasure
    by_cases hend : c.cur = v.last
    · exact ⟨[], .done hend, Nat.zero_le _⟩
    · have hlt := Nat.lt_of_le_of_ne hcur hend
      obtain ⟨stop, after, hmatches, hnext⟩ := next_spec hlt
      have hless := remaining_lt hmatches hlt
      obtain ⟨segs, hrest, hlength⟩ := ih _ hless hmatches.le_last rfl
      exact ⟨_, .step hlt hmatches hnext hrest, Nat.lt_of_le_of_lt hlength hless⟩

theorem Trace.collect_eq {c : SplitWhenCursor} {segs : List Segment} (h : Trace v c segs)
    (extra : Nat) :
    (loop v).collect (segs.length + 1 + extra) c = .ok (segs.map Segment.inner) := by
  induction h with
  | done hend =>
    have hatEnd := decide_eq_true hend
    rw [List.length_nil, Nat.zero_add, Nat.add_comm, Loop.collect]
    simp only [loop, hatEnd, exec_bind_ok, if_true, List.map_nil]
  | step hcur _ hnext _ ih =>
    have hatEnd := decide_eq_false (Nat.ne_of_lt hcur)
    rw [List.length_cons, Nat.add_right_comm, Loop.collect]
    simp only [loop, hatEnd, exec_bind_ok, Bool.false_eq_true, if_false, hnext]
    exact (congrArg (· >>= fun xs => Except.ok (_ :: xs)) ih)

theorem drop_cut (l : List α) {i j : Nat} (h : i ≤ j) :
    (l.drop i).take (j - i) ++ l.drop j = l.drop i := by
  have hdrop : l.drop j = (l.drop i).drop (j - i) := by
    rw [List.drop_drop, Nat.add_sub_cancel' h]
  rw [hdrop, List.take_append_drop]

/-- Nothing is lost or repeated. -/
theorem Trace.flatMap_eq {c : SplitWhenCursor} {segs : List Segment} (h : Trace v c segs) :
    (segs.flatMap fun s => s.piece v ++ s.delimiter v) = v.base.drop c.cur := by
  induction h with
  | done hend =>
    rw [hend, last, List.drop_length]
    rfl
  | @step c stop after segs _ hmatches _ _ ih =>
    have hdelimiter := drop_cut v.base hmatches.le_after
    have hpiece := drop_cut v.base hmatches.le_stop
    rw [List.flatMap_cons, ih, List.append_assoc, Segment.delimiter, hdelimiter]
    exact hpiece

theorem Trace.agrees {c : SplitWhenCursor} {segs : List Segment} (h : Trace v c segs) :
    ∀ s ∈ segs, Matches v s ∧ Agrees v s := by
  induction h with
  | done => exact List.forall_mem_nil _
  | step _ hmatches hnext _ ih =>
    have hnumbers := innerLoop_numbers hmatches
    obtain ⟨it, hrun, hit, _⟩ := hnumbers.nth_eq (Nat.le_refl _)
    refine List.forall_mem_cons.mpr ⟨⟨hmatches, hnumbers.delivers, ?_, hnext⟩, ih⟩
    rw [hrun, hit, length_piece hmatches, Nat.add_sub_cancel' hmatches.le_stop]

/-- Another piece begins behind a match that does not end at the end. After a match of length
zero that piece is not empty. -/
def Follows (v : SplitWhenView α) (s s' : Segment) : Prop :=
  s.after < v.last ∧ s'.inner.first = s.after ∧ (s.stop = s.after → s'.piece v ≠ [])

theorem Trace.follows {c : SplitWhenCursor} {segs : List Segment} (h : Trace v c segs) :
    segs.IsChain (Follows v) := by
  induction h with
  | done => exact .nil
  | @step c stop after segs _ hmatches _ hrest ih =>
    cases hrest with
    | done => exact .singleton _
    | step hcur hmatches' =>
      refine .cons_cons ⟨hcur, rfl, fun hzero => ?_⟩ ih
      have hlt : stop < v.last := Nat.lt_of_le_of_lt hmatches.le_after hcur
      have hpos := hmatches'.forced (decide_eq_true ⟨hlt, hzero⟩)
      rw [← List.length_pos_iff, length_piece hmatches']
      exact Nat.sub_pos_of_lt hpos

/-- A loop over the view goes over the pieces of a trace. -/
theorem exists_delivered (v : SplitWhenView α) :
    ∃ c segs, beginCursor v = .ok c ∧ c.cur = 0 ∧ Trace v c segs ∧
      (loop v).Delivers (segs.map Segment.inner) ∧ segs.length ≤ 2 * v.last := by
  obtain ⟨p, hrun, _⟩ := v.within 0 (Nat.zero_le _)
  have hstart : beginCursor v = .ok ⟨p.1 && decide (0 = p.2), 0⟩ := by
    rw [beginCursor, hrun]
    rfl
  obtain ⟨segs, htrace, hlength⟩ :=
    exists_trace (v := v) (c := ⟨p.1 && decide (0 = p.2), 0⟩) (Nat.zero_le _)
  refine ⟨_, segs, hstart, rfl, htrace, .of_forall (segs.length + 1) fun extra => ?_,
    Nat.le_trans hlength (Nat.sub_le _ _)⟩
  have hloop : (loop v).start = .ok ⟨p.1 && decide (0 = p.2), 0⟩ := hstart
  rw [Loop.elements, hloop]
  exact htrace.collect_eq extra

/-- The view ends. Its pieces, each with the match behind it, are the base. -/
theorem splitsWhen (v : SplitWhenView α) :
    ∃ segs : List Segment, (loop v).Delivers (segs.map Segment.inner) ∧
      (∀ s ∈ segs, Matches v s ∧ Agrees v s) ∧
      (segs.flatMap fun s => s.piece v ++ s.delimiter v) = v.base ∧
      segs.IsChain (Follows v) ∧ segs.length ≤ 2 * v.last := by
  obtain ⟨c, segs, _, hcur, htrace, hdelivers, hlength⟩ := exists_delivered v
  have hflatMap := htrace.flatMap_eq
  rw [hcur, List.drop_zero] at hflatMap
  exact ⟨segs, hdelivers, htrace.agrees, hflatMap, htrace.follows, hlength⟩

/-- An empty piece between a match and one of length zero; then one that is forced to begin with
the element there. -/
example : (loop ⟨[1, 2, 3], fun cur => .ok (decide (cur ≤ 1), max cur 1), fun cur hcur =>
    ⟨_, rfl, Nat.le_max_left _ _, Nat.max_le.mpr ⟨hcur, by decide⟩⟩⟩).elements 4 =
    .ok [⟨false, 0⟩, ⟨false, 1⟩, ⟨true, 1⟩] := by decide

/-! ## Matches of a predicate -/

section
variable {pred : α → Bool} {base : List α}

theorem ofPredicate_pos {cur after : Nat} (hcur : cur ≤ base.length)
    (h : (ofPredicate pred base).fun_ cur = .ok (true, after)) :
    cur < after ∧ ∀ k x, cur ≤ k → k < after → base[k]? = some x → pred x = true := by
  obtain ⟨t, hrun, hle, _, hbefore, _⟩ := predicatePred_spec pred base hcur
  obtain ⟨hne, rfl⟩ := Prod.mk.inj (Except.ok.inj (hrun.symm.trans h))
  exact ⟨Nat.lt_of_le_of_ne hle (of_decide_eq_true hne), hbefore⟩

theorem ofPredicate_fails {cur pos : Nat} (hcur : cur < base.length)
    (h : (ofPredicate pred base).fun_ cur = .ok (false, pos)) : pred base[cur] = false := by
  obtain ⟨t, hrun, _, _, _, hhere⟩ := predicatePred_spec pred base (Nat.le_of_lt hcur)
  obtain ⟨heq, rfl⟩ := Prod.mk.inj (Except.ok.inj (hrun.symm.trans h))
  obtain rfl := not_not.mp (of_decide_eq_false heq)
  obtain ⟨x, hx, hpred⟩ := hhere hcur
  rw [List.getElem?_eq_getElem hcur] at hx
  rwa [Option.some.inj hx]

/-- No match has length zero, so the flag is never set. -/
theorem Trace.zero_eq {c : SplitWhenCursor} {segs : List Segment}
    (h : Trace (ofPredicate pred base) c segs) (hzero : c.zero = false) :
    ∀ s ∈ segs, s.inner.zero = false := by
  induction h with
  | done => exact List.forall_mem_nil _
  | @step c stop after segs _ hmatches _ _ ih =>
    refine List.forall_mem_cons.mpr ⟨hzero, ih (decide_eq_false ?_)⟩
    rintro ⟨hlt, hempty⟩
    obtain hend | hrun := hmatches.here
    · exact absurd hend (Nat.ne_of_lt hlt)
    · exact absurd hempty (Nat.ne_of_lt (ofPredicate_pos (Nat.le_of_lt hlt) hrun).1)

theorem Matches.of_predicate {s : Segment} (h : Matches (ofPredicate pred base) s)
    (hzero : s.inner.zero = false) :
    (∀ x ∈ s.piece (ofPredicate pred base), pred x = false) ∧
      ∀ x ∈ s.delimiter (ofPredicate pred base), pred x = true := by
  have hbase : (ofPredicate pred base).base = base := rfl
  have hlast : (ofPredicate pred base).last = base.length := rfl
  have hstop := Nat.le_trans h.le_after h.le_last
  constructor
  · intro x hx
    obtain ⟨k, hk⟩ := List.mem_iff_getElem?.mp hx
    have hlt := (List.getElem?_eq_some_iff.mp hk).1
    rw [length_piece h] at hlt
    rw [Segment.piece, List.getElem?_take_of_lt hlt, List.getElem?_drop, hbase] at hk
    obtain ⟨hpos, rfl⟩ := List.getElem?_eq_some_iff.mp hk
    obtain ⟨hforced, _⟩ | ⟨pos, hrun⟩ := h.before (s.inner.first + k) (by omega) (by omega)
    · rw [hzero] at hforced
      cases hforced
    · exact ofPredicate_fails hpos hrun
  · intro x hx
    obtain ⟨k, hk⟩ := List.mem_iff_getElem?.mp hx
    have hlt := (List.getElem?_eq_some_iff.mp hk).1
    rw [Segment.delimiter, List.length_take] at hlt
    rw [Segment.delimiter, List.getElem?_take_of_lt (by omega), List.getElem?_drop, hbase] at hk
    obtain hend | hrun := h.here
    · have hlength := (List.getElem?_eq_some_iff.mp hk).1
      omega
    · exact (ofPredicate_pos (hlast ▸ hstop) hrun).2 _ x (Nat.le_add_right _ k) (by omega) hk

/-- The pieces are the runs of elements that do not satisfy the predicate. -/
theorem splitsWhen_predicate (pred : α → Bool) (base : List α) :
    ∃ segs : List Segment, (loop (ofPredicate pred base)).Delivers (segs.map Segment.inner) ∧
      (segs.flatMap fun s => s.piece (ofPredicate pred base) ++
        s.delimiter (ofPredicate pred base)) = base ∧
      ∀ s ∈ segs, (∀ x ∈ s.piece (ofPredicate pred base), pred x = false) ∧
        ∀ x ∈ s.delimiter (ofPredicate pred base), pred x = true := by
  obtain ⟨c, segs, hbegin, hcur, htrace, hdelivers, _⟩ := exists_delivered (ofPredicate pred base)
  have hflatMap := htrace.flatMap_eq
  rw [hcur, List.drop_zero] at hflatMap
  refine ⟨segs, hdelivers, hflatMap, fun s hs => ?_⟩
  have hzero : c.zero = false := by
    obtain ⟨t, hrun, _⟩ := predicatePred_spec pred base (Nat.zero_le _)
    have hfun : (ofPredicate pred base).fun_ 0 = .ok (decide (0 ≠ t), t) := hrun
    rw [beginCursor, hfun, exec_bind_ok] at hbegin
    obtain rfl := Except.ok.inj hbegin
    by_cases ht : 0 = t <;> simp [ht]
  exact (htrace.agrees s hs).1.of_predicate (htrace.zero_eq hzero s hs)

end

end SplitWhenView

end EARanges.View
