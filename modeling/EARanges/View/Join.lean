import EARanges.Iterator.RangeTraits
import EARanges.Support.InPlace
import EARanges.Support.Nested
import EARanges.Support.Numbered

/-!
# `join_view`

view/join.hpp. A cursor is an iterator of the outer range and one of an inner range. If
the outer range yields references, the inner ranges stay where they are; if it yields
values, the view keeps the current one in a cache, which belongs to the state below.
The loop of `satisfy` takes a bound on its tests, which is never reached.
-/
namespace EARanges.View
open EARanges.Support EARanges.Iterator

variable {α : Type}

/-! ## `join_view_inner` -/

/-- `update_inner_`: the inner range at `outerIt`, and the cache. -/
def updateInner (glvalue : Bool) (rngs : List (List α)) (outerIt : Nat)
    (cache : Option (List α)) : Exec (List α × Option (List α)) := do
  let inner ← deref rngs outerIt
  if glvalue then .ok (inner, cache) else .ok (inner, some inner)

/-- `get_inner_`. -/
def getInner (glvalue : Bool) (rngs : List (List α)) (outerIt : Nat)
    (cache : Option (List α)) : Exec (List α) :=
  if glvalue then deref rngs outerIt
  else match cache with
    | some inner => .ok inner
    | none => .error .fault

/-- What `update_inner_` leaves in the cache. References are not cached. -/
def cached (glvalue : Bool) (inner : List α) : Option (List α) :=
  if glvalue then none else some inner

theorem updateInner_eq {glvalue : Bool} {rngs : List (List α)} {k : Nat}
    {cache : Option (List α)} (hk : k < rngs.length) (hcache : glvalue = true → cache = none) :
    updateInner glvalue rngs k cache =
      .ok (innerList rngs k, cached glvalue (innerList rngs k)) := by
  rw [updateInner, deref_eq hk, exec_bind_ok, innerList_eq_getElem rngs hk]
  cases glvalue with
  | true => rw [hcache rfl]; rfl
  | false => rfl

theorem getInner_eq (glvalue : Bool) {rngs : List (List α)} {k : Nat} (hk : k < rngs.length) :
    getInner glvalue rngs k (cached glvalue (innerList rngs k)) = .ok (innerList rngs k) := by
  cases glvalue with
  | true => exact (deref_eq hk).trans (congrArg Except.ok (innerList_eq_getElem rngs hk).symm)
  | false => rfl

/-! ## The cursor -/

/-- `glvalue` says whether the outer range yields references. -/
structure JoinView (α : Type) where
  rngs : List (List α)
  glvalue : Bool
  outer : RangeTraits
  inner : RangeTraits

/-- `innerIt` is an index into the inner range that `get_inner_` returns; a
value-initialised iterator is `none`. -/
structure JoinState (α : Type) where
  outerIt : Nat
  innerIt : Option Nat
  cache : Option (List α)
  deriving DecidableEq, Repr

namespace JoinView

/-- The index of `end(outer_)`. -/
def outerEnd (v : JoinView α) : Nat := v.rngs.length

/-- The index of `end(*it)`. -/
def last (v : JoinView α) (outerIt : Nat) : Nat := (innerList v.rngs outerIt).length

def satisfyFrom (v : JoinView α) : Nat → JoinState α → Exec (JoinState α)
  | 0, _ => .error .fuel
  | fuel + 1, s =>
    if s.outerIt = v.outerEnd then
      if v.glvalue then .ok { s with innerIt := none } else .ok s
    else do
      let (inner, cache) ← updateInner v.glvalue v.rngs s.outerIt s.cache
      if 0 ≠ inner.length then .ok ⟨s.outerIt, some 0, cache⟩
      else
        let outerIt ← incrTo v.outerEnd s.outerIt
        satisfyFrom v fuel ⟨outerIt, some 0, cache⟩

def satisfy (v : JoinView α) (s : JoinState α) : Exec (JoinState α) :=
  satisfyFrom v (v.outerEnd + 1) s

/-- `cursor(rng, begin_or_end)`. -/
def cursor (v : JoinView α) (outerIt : Nat) : Exec (JoinState α) := satisfy v ⟨outerIt, none, none⟩

/-- Where the end is a cursor too. -/
def hasEndCursor (v : JoinView α) : Bool :=
  v.glvalue && v.outer.forward && v.inner.forward && v.outer.common && v.inner.common

/-- What `prev` requires. -/
def canPrev (v : JoinView α) : Bool :=
  v.glvalue && v.outer.bidirectional && v.inner.bidirectional && v.inner.common

/-- `outer_it_ == that.outer_it_ && inner_it_ == that.inner_it_`. -/
def equal (s that : JoinState α) : Bool :=
  s.outerIt == that.outerIt && s.innerIt == that.innerIt

def atEnd (v : JoinView α) (s : JoinState α) : Exec Bool :=
  if hasEndCursor v then do
    let e ← cursor v v.outerEnd
    .ok (equal s e)
  else .ok (s.outerIt == v.outerEnd)

def next (v : JoinView α) (s : JoinState α) : Exec (JoinState α) := do
  let inner ← getInner v.glvalue v.rngs s.outerIt s.cache
  match s.innerIt with
  | none => .error .fault
  | some it =>
    let it ← incrTo inner.length it
    if it = inner.length then
      let outerIt ← incrTo v.outerEnd s.outerIt
      satisfy v ⟨outerIt, some it, s.cache⟩
    else .ok ⟨s.outerIt, some it, s.cache⟩

/-- `while(inner_it_ == begin(*outer_it_)) inner_it_ = end(*--outer_it_);` and `--inner_it_`,
over references. -/
def prevFrom (v : JoinView α) : Nat → Nat → Exec (JoinState α)
  | 0, it =>
    if it = 0 then .error .fault
    else do
      let it ← decr (v.last 0) it
      .ok ⟨0, some it, none⟩
  | outerIt + 1, it =>
    if it = 0 then prevFrom v outerIt (v.last outerIt)
    else do
      let it ← decr (v.last (outerIt + 1)) it
      .ok ⟨outerIt + 1, some it, none⟩

def prev (v : JoinView α) (s : JoinState α) : Exec (JoinState α) :=
  if s.outerIt = v.outerEnd then do
    let outerIt ← decr v.outerEnd s.outerIt
    prevFrom v outerIt (v.last outerIt)
  else
    match s.innerIt with
    | none => .error .fault
    | some it => prevFrom v s.outerIt it

def read (v : JoinView α) (s : JoinState α) : Exec α := do
  let inner ← getInner v.glvalue v.rngs s.outerIt s.cache
  match s.innerIt with
  | none => .error .fault
  | some it => deref inner it

def loop (v : JoinView α) : Loop (JoinState α) α where
  start := cursor v 0
  atEnd := atEnd v
  read := read v
  next := next v

/-! ## Where a cursor stands -/

/-- The cursor before element `j` of inner range `k`. -/
def stateAt (v : JoinView α) (k j : Nat) : JoinState α :=
  ⟨k, some j, cached v.glvalue (innerList v.rngs k)⟩

/-- The outer range is exhausted. Over references the inner iterator is reset. -/
structure Exhausted (v : JoinView α) (s : JoinState α) : Prop where
  outer_eq : s.outerIt = v.outerEnd
  reset : v.glvalue = true → s.innerIt = none ∧ s.cache = none

/-- The cursors before element `i` of the joined range. The inner iterator is not at an
end, unless the outer one is. -/
def At (v : JoinView α) (i : Nat) (s : JoinState α) : Prop :=
  (∃ k j, k < v.outerEnd ∧ j < v.last k ∧ i = offset v.rngs k + j ∧ s = stateAt v k j) ∨
    (i = v.rngs.flatten.length ∧ Exhausted v s)

theorem At.inside {v : JoinView α} {i : Nat} {s : JoinState α} (h : At v i s)
    (hi : i < v.rngs.flatten.length) :
    ∃ k j, k < v.outerEnd ∧ j < v.last k ∧ i = offset v.rngs k + j ∧ s = stateAt v k j := by
  rcases h with hin | ⟨hend, _⟩
  · exact hin
  · omega

theorem Exhausted.unique {v : JoinView α} (hglvalue : v.glvalue = true) {s s' : JoinState α}
    (h : Exhausted v s) (h' : Exhausted v s') : s = s' := by
  obtain ⟨outerIt, innerIt, cache⟩ := s
  obtain ⟨outerIt', innerIt', cache'⟩ := s'
  obtain ⟨hinner, hcache⟩ := h.reset hglvalue
  obtain ⟨hinner', hcache'⟩ := h'.reset hglvalue
  rw [JoinState.mk.injEq]
  exact ⟨h.outer_eq.trans h'.outer_eq.symm, hinner.trans hinner'.symm, hcache.trans hcache'.symm⟩

theorem At.unique {v : JoinView α} (hglvalue : v.glvalue = true) (i : Nat) (s s' : JoinState α)
    (h : At v i s) (h' : At v i s') : s = s' := by
  rcases h with ⟨k, j, hk, hj, rfl, rfl⟩ | ⟨hi, hs⟩
  · obtain ⟨k', j', _, hj', heq, rfl⟩ := h'.inside (offset_add_lt_length v.rngs hk hj)
    obtain ⟨rfl, rfl⟩ := offset_add_inj v.rngs hj hj' heq
    rfl
  · rcases h' with ⟨k', j', hk', hj', heq, rfl⟩ | ⟨_, hs'⟩
    · have := offset_add_lt_length v.rngs hk' hj'
      omega
    · exact hs.unique hglvalue hs'

/-! ## What the operations do -/

/-- `satisfy` skips the empty inner ranges from `k` on. -/
theorem satisfyFrom_spec {v : JoinView α} {fuel k : Nat} {innerIt : Option Nat}
    {cache : Option (List α)} (hk : k ≤ v.outerEnd) (hfuel : v.outerEnd - k < fuel)
    (hcache : v.glvalue = true → cache = none) :
    ∃ s, satisfyFrom v fuel ⟨k, innerIt, cache⟩ = .ok s ∧ At v (offset v.rngs k) s := by
  induction fuel generalizing k innerIt cache with
  | zero => omega
  | succ fuel ih =>
    rw [satisfyFrom]
    by_cases hend : k = v.outerEnd
    · rw [if_pos hend]
      have htotal : offset v.rngs k = v.rngs.flatten.length := by rw [hend, outerEnd, offset_length]
      cases hglvalue : v.glvalue with
      | true => exact ⟨_, rfl, .inr ⟨htotal, hend, fun _ => ⟨rfl, hcache hglvalue⟩⟩⟩
      | false =>
        refine ⟨_, rfl, .inr ⟨htotal, hend, fun hglvalue' => ?_⟩⟩
        rw [hglvalue] at hglvalue'
        cases hglvalue'
    · have hlt : k < v.outerEnd := by omega
      rw [if_neg hend, updateInner_eq hlt hcache, exec_bind_ok]
      dsimp only
      by_cases hempty : 0 ≠ (innerList v.rngs k).length
      · rw [if_pos hempty]
        exact ⟨_, rfl, .inl ⟨k, 0, hlt, Nat.pos_of_ne_zero hempty.symm, rfl, rfl⟩⟩
      · have hincr : incrTo v.outerEnd k = .ok (k + 1) := incrTo_ok hlt
        have hskip : offset v.rngs (k + 1) = offset v.rngs k := by
          rw [offset]
          omega
        rw [if_neg hempty, hincr, exec_bind_ok, ← hskip]
        apply ih hlt (by omega)
        intro hglvalue
        rw [cached, if_pos hglvalue]

theorem satisfy_spec {v : JoinView α} {k : Nat} {innerIt : Option Nat}
    {cache : Option (List α)} (hk : k ≤ v.outerEnd) (hcache : v.glvalue = true → cache = none) :
    ∃ s, satisfy v ⟨k, innerIt, cache⟩ = .ok s ∧ At v (offset v.rngs k) s :=
  satisfyFrom_spec hk (by omega) hcache

theorem next_spec {v : JoinView α} {i : Nat} {s : JoinState α} (h : At v i s)
    (hi : i < v.rngs.flatten.length) : ∃ s', next v s = .ok s' ∧ At v (i + 1) s' := by
  obtain ⟨k, j, hk, hj, rfl, rfl⟩ := h.inside hi
  have hincr : incrTo (innerList v.rngs k).length j = .ok (j + 1) := incrTo_ok hj
  rw [next, stateAt]
  dsimp only
  rw [getInner_eq v.glvalue hk, exec_bind_ok, hincr, exec_bind_ok]
  by_cases hlast : j + 1 = (innerList v.rngs k).length
  · have houter : incrTo v.outerEnd k = .ok (k + 1) := incrTo_ok hk
    have hnext : offset v.rngs k + j + 1 = offset v.rngs (k + 1) := by
      rw [offset]
      omega
    rw [if_pos hlast, houter, exec_bind_ok, hnext]
    apply satisfy_spec hk
    intro hglvalue
    rw [cached, if_pos hglvalue]
  · rw [if_neg hlast]
    have hlt : j + 1 < v.last k := Nat.lt_of_le_of_ne hj hlast
    exact ⟨_, rfl, .inl ⟨k, j + 1, hk, hlt, Nat.add_assoc _ _ _, rfl⟩⟩

/-- The way back passes the empty inner ranges before `k`. -/
theorem prevFrom_spec {v : JoinView α} (hglvalue : v.glvalue = true) {k j : Nat}
    (hk : k < v.outerEnd) (hj : j ≤ v.last k) (hpos : 0 < offset v.rngs k + j) :
    ∃ s, prevFrom v k j = .ok s ∧ At v (offset v.rngs k + j - 1) s := by
  have hstate : ∀ k j, stateAt v k j = ⟨k, some j, none⟩ := by
    intro k j
    rw [stateAt, cached, if_pos hglvalue]
  induction k generalizing j with
  | zero =>
    have hj0 : 0 < j := by rw [offset] at hpos; omega
    have hdecr : decr (v.last 0) j = .ok (j - 1) := decr_ok hj0
    rw [prevFrom, if_neg (Nat.ne_of_gt hj0), hdecr, exec_bind_ok, ← hstate]
    exact ⟨_, rfl, .inl ⟨0, j - 1, hk, by omega, by omega, rfl⟩⟩
  | succ k ih =>
    rw [prevFrom]
    by_cases hzero : j = 0
    · rw [if_pos hzero]
      rw [hzero, offset, Nat.add_zero] at hpos ⊢
      exact ih (Nat.lt_of_succ_lt hk) (Nat.le_refl _) hpos
    · have hdecr : decr (v.last (k + 1)) j = .ok (j - 1) :=
        decr_ok (Nat.pos_of_ne_zero hzero)
      rw [if_neg hzero, hdecr, exec_bind_ok, ← hstate]
      exact ⟨_, rfl, .inl ⟨k + 1, j - 1, hk, by omega, by omega, rfl⟩⟩

theorem prev_spec {v : JoinView α} (hglvalue : v.glvalue = true) {i : Nat} {s : JoinState α}
    (h : At v (i + 1) s) : ∃ s', prev v s = .ok s' ∧ At v i s' := by
  rcases h with ⟨k, j, hk, hj, hi, rfl⟩ | ⟨hi, hs⟩
  · have hback := prevFrom_spec hglvalue hk (Nat.le_of_lt hj) (by omega)
    rw [← hi, Nat.add_sub_cancel] at hback
    rwa [prev, stateAt, if_neg (Nat.ne_of_lt hk)]
  · have htotal := offset_length v.rngs
    have hpos : 0 < v.outerEnd := by
      by_contra hnone
      have hzero : v.rngs.length = 0 := Nat.eq_zero_of_not_pos hnone
      rw [hzero, offset] at htotal
      omega
    obtain ⟨k, hk⟩ := Nat.exists_eq_succ_of_ne_zero (Nat.ne_of_gt hpos)
    have hlength : v.rngs.length = k + 1 := hk
    have hdecr : decr v.outerEnd v.outerEnd = .ok k := by
      rw [decr_ok hpos, hk]
      rfl
    rw [hlength, offset] at htotal
    have hlast : offset v.rngs k + v.last k = i + 1 := htotal.trans hi.symm
    have hback := prevFrom_spec hglvalue (by omega : k < v.outerEnd) (Nat.le_refl _) (by omega)
    rw [hlast, Nat.add_sub_cancel] at hback
    rwa [prev, if_pos hs.outer_eq, hs.outer_eq, hdecr, exec_bind_ok]

theorem At.outer_iff {v : JoinView α} {i : Nat} {s : JoinState α} (h : At v i s) :
    s.outerIt = v.outerEnd ↔ i = v.rngs.flatten.length := by
  rcases h with ⟨k, j, hk, hj, rfl, rfl⟩ | ⟨hi, hs⟩
  · have hlt := offset_add_lt_length v.rngs hk hj
    exact ⟨fun h => absurd h (Nat.ne_of_lt hk), fun h => absurd h (Nat.ne_of_lt hlt)⟩
  · exact ⟨fun _ => hi, fun _ => hs.outer_eq⟩

theorem equal_iff {s that : JoinState α} (h : s.cache = that.cache) :
    equal s that = true ↔ s = that := by
  obtain ⟨outerIt, innerIt, cache⟩ := s
  obtain ⟨outerIt', innerIt', cache'⟩ := that
  rw [equal, Bool.and_eq_true, beq_iff_eq, beq_iff_eq, JoinState.mk.injEq]
  exact ⟨fun heq => ⟨heq.1, heq.2, h⟩, fun heq => ⟨heq.1, heq.2.1⟩⟩

theorem At.cache_eq {v : JoinView α} (hglvalue : v.glvalue = true) {i : Nat} {s : JoinState α}
    (h : At v i s) : s.cache = none := by
  rcases h with ⟨k, j, _, _, _, rfl⟩ | ⟨_, hs⟩
  · exact if_pos hglvalue
  · exact (hs.reset hglvalue).2

/-- A cursor stands at one position only. -/
theorem At.position_unique {v : JoinView α} {i j : Nat} {s : JoinState α} (h : At v i s)
    (h' : At v j s) : i = j := by
  rcases h with ⟨k, m, hk, _, rfl, rfl⟩ | ⟨hi, hs⟩
  · rcases h' with ⟨k', m', _, _, rfl, heq⟩ | ⟨_, hs'⟩
    · obtain ⟨rfl, hm, _⟩ := JoinState.mk.inj heq
      rw [Option.some.inj hm]
    · exact absurd hs'.outer_eq (Nat.ne_of_lt hk)
  · exact hi.trans (h'.outer_iff.mp hs.outer_eq).symm

/-- Over references two cursors compare equal at the same position. -/
theorem At.equal_iff {v : JoinView α} (hglvalue : v.glvalue = true) {i j : Nat}
    {s s' : JoinState α} (h : At v i s) (h' : At v j s') : equal s s' = true ↔ i = j := by
  rw [JoinView.equal_iff ((h.cache_eq hglvalue).trans (h'.cache_eq hglvalue).symm)]
  constructor
  · rintro rfl
    exact h.position_unique h'
  · rintro rfl
    exact At.unique hglvalue i s s' h h'

theorem glvalue_of_hasEndCursor {v : JoinView α} (h : hasEndCursor v = true) :
    v.glvalue = true := by
  simp only [hasEndCursor, Bool.and_eq_true] at h
  exact h.1.1.1.1

theorem glvalue_of_canPrev {v : JoinView α} (h : canPrev v = true) : v.glvalue = true := by
  simp only [canPrev, Bool.and_eq_true] at h
  exact h.1.1.1

/-- The end cursor, where there is one, stands behind the last element. -/
theorem cursor_end (v : JoinView α) :
    ∃ s, cursor v v.outerEnd = .ok s ∧ At v v.rngs.flatten.length s := by
  rw [← offset_length]
  exact satisfy_spec (Nat.le_refl v.outerEnd) fun _ => rfl

theorem atEnd_eq {v : JoinView α} {i : Nat} {s : JoinState α} (h : At v i s) :
    atEnd v s = .ok (decide (i = v.rngs.flatten.length)) := by
  unfold atEnd
  split
  next hcursor =>
    obtain ⟨e, hend, hate⟩ := cursor_end v
    rw [hend, exec_bind_ok]
    congr 1
    rw [Bool.eq_iff_iff, decide_eq_true_eq]
    exact h.equal_iff (glvalue_of_hasEndCursor hcursor) hate
  next =>
    congr 1
    rw [Bool.eq_iff_iff, beq_iff_eq, decide_eq_true_eq]
    exact h.outer_iff

theorem loop_numbers (v : JoinView α) : (loop v).Numbers v.rngs.flatten (At v) := by
  refine ⟨⟨?_, ?_⟩, ?_, ?_⟩
  · exact satisfy_spec (Nat.zero_le _) fun _ => rfl
  · exact fun i s h hi => next_spec h hi
  · exact fun i s h => atEnd_eq h
  · intro i s x h hx
    obtain ⟨k, j, hk, hj, rfl, rfl⟩ := h.inside (List.getElem?_eq_some_iff.mp hx).1
    have hread : read v (stateAt v k j) = deref (innerList v.rngs k) j := by
      simp only [read, stateAt, getInner_eq v.glvalue hk, exec_bind_ok]
    rw [flatten_getElem? v.rngs hj] at hx
    exact hread.trans (deref_of_some hx)

/-! ## The flattening law -/

/-- The view is the concatenation of the inner ranges. -/
structure FlattenLaw (v : JoinView α) : Prop where
  forward : (loop v).Delivers v.rngs.flatten
  exhausted : ∀ i ≤ v.rngs.flatten.length, ∃ s, (loop v).nth i = .ok s ∧
    (s.outerIt = v.outerEnd ↔ i = v.rngs.flatten.length)
  end_eq : hasEndCursor v = true → (loop v).nth v.rngs.flatten.length = cursor v v.outerEnd
  prev_next : canPrev v = true → (loop v).PrevUndoesNext (prev v) v.rngs.flatten.length
  equals : v.glvalue = true → (loop v).EqualsArePositions equal v.rngs.flatten.length

theorem joinView_flatten (v : JoinView α) : FlattenLaw v := by
  have hnumbers := v.loop_numbers
  have hnumbering := hnumbers.toNumbering
  refine ⟨hnumbers.delivers, ?_, ?_, ?_, ?_⟩
  · intro i hi
    obtain ⟨s, hrun, hat⟩ := hnumbering.nth_eq hi
    exact ⟨s, hrun, hat.outer_iff⟩
  · intro hcursor
    obtain ⟨s, hrun, hat⟩ := hnumbering.nth_eq (Nat.le_refl _)
    obtain ⟨e, hend, hate⟩ := cursor_end v
    rw [hrun, hend, At.unique (glvalue_of_hasEndCursor hcursor) _ s e hat hate]
  · intro hprev
    have hglvalue := glvalue_of_canPrev hprev
    exact hnumbering.prevUndoesNext (At.unique hglvalue) fun i s h _ => prev_spec hglvalue h
  · intro hglvalue
    apply hnumbering.equalsArePositions
    exact fun i j s s' h h' _ _ => h.equal_iff hglvalue h'

end JoinView

end EARanges.View
