import EARanges.View.Join

/-!
# `join_with_view`

view/join.hpp. A cursor is inside an inner range or inside the delimiter before one. The
view runs through the pieces `rngs[0], val, rngs[1], val, ...` in order, so a cursor is
numbered by its piece and its index into it. The loop of `satisfy` takes a bound on its
turns, which is never reached.
-/
namespace EARanges.View
open EARanges.Support EARanges.Iterator

variable {α : Type}

/-- `glvalue` says whether the outer range yields references. -/
structure JoinWithView (α : Type) where
  rngs : List (List α)
  val : List α
  glvalue : Bool

/-- The two alternatives of `cur_`, by the index of the iterator. -/
inductive JoinWithCur where
  | val (it : Nat)
  | inner (it : Nat)
  deriving DecidableEq, Repr

/-- `cur` is `none` until an iterator has been emplaced. -/
structure JoinWithState (α : Type) where
  outerIt : Nat
  cur : Option JoinWithCur
  cache : Option (List α)
  deriving DecidableEq, Repr

namespace JoinWithView

/-- The index of `end(outer_)`. -/
def outerEnd (v : JoinWithView α) : Nat := v.rngs.length

def satisfyFrom (v : JoinWithView α) : Nat → JoinWithState α → Exec (JoinWithState α)
  | 0, _ => .error .fuel
  | _ + 1, ⟨_, none, _⟩ => .error .fault
  | fuel + 1, ⟨outerIt, some (.val it), cache⟩ =>
    if it ≠ v.val.length then .ok ⟨outerIt, some (.val it), cache⟩
    else do
      let (_, cache) ← updateInner v.glvalue v.rngs outerIt cache
      satisfyFrom v fuel ⟨outerIt, some (.inner 0), cache⟩
  | fuel + 1, ⟨outerIt, some (.inner it), cache⟩ => do
    let inner ← getInner v.glvalue v.rngs outerIt cache
    if it ≠ inner.length then .ok ⟨outerIt, some (.inner it), cache⟩
    else
      let outerIt ← incrTo v.outerEnd outerIt
      if outerIt = v.outerEnd then .ok ⟨outerIt, some (.inner it), cache⟩
      else satisfyFrom v fuel ⟨outerIt, some (.val 0), cache⟩

def satisfy (v : JoinWithView α) (s : JoinWithState α) : Exec (JoinWithState α) :=
  satisfyFrom v (2 * v.outerEnd) s

/-- `cursor(rng)`. -/
def cursor (v : JoinWithView α) : Exec (JoinWithState α) :=
  if 0 ≠ v.outerEnd then do
    let (_, cache) ← updateInner v.glvalue v.rngs 0 none
    satisfy v ⟨0, some (.inner 0), cache⟩
  else .ok ⟨0, none, none⟩

def next (v : JoinWithView α) : JoinWithState α → Exec (JoinWithState α)
  | ⟨_, none, _⟩ => .error .fault
  | ⟨outerIt, some (.val it), cache⟩ => do
    let it ← incrTo v.val.length it
    satisfy v ⟨outerIt, some (.val it), cache⟩
  | ⟨outerIt, some (.inner it), cache⟩ => do
    let inner ← getInner v.glvalue v.rngs outerIt cache
    let it ← incrTo inner.length it
    satisfy v ⟨outerIt, some (.inner it), cache⟩

def read (v : JoinWithView α) : JoinWithState α → Exec α
  | ⟨_, none, _⟩ => .error .fault
  | ⟨_, some (.val it), _⟩ => deref v.val it
  | ⟨outerIt, some (.inner it), cache⟩ => do
    let inner ← getInner v.glvalue v.rngs outerIt cache
    deref inner it

def loop (v : JoinWithView α) : Loop (JoinWithState α) α where
  start := cursor v
  atEnd s := .ok (s.outerIt == v.outerEnd)
  read := read v
  next := next v

/-! ## Pieces -/

/-- What the view runs through. -/
def pieces (v : JoinWithView α) : List (List α) := v.rngs.intersperse v.val

theorem pieces_flatten (v : JoinWithView α) : v.pieces.flatten = v.val.intercalate v.rngs := rfl

theorem length_pieces (v : JoinWithView α) : v.pieces.length = 2 * v.outerEnd - 1 :=
  List.length_intersperse

theorem inner_pieces_even (v : JoinWithView α) (k : Nat) :
    innerList v.pieces (2 * k) = innerList v.rngs k := by
  simp only [innerList, pieces, List.getD_eq_getElem?_getD, List.getElem?_intersperse_two_mul]

theorem inner_pieces_odd (v : JoinWithView α) {k : Nat} (hk : k + 1 < v.outerEnd) :
    innerList v.pieces (2 * k + 1) = v.val := by
  simp only [innerList, pieces, List.getD_eq_getElem?_getD,
    List.getElem?_intersperse_two_mul_add_one hk,
    Option.getD_some]

/-- The states with the iterator at index `j` of piece `m`. In a delimiter the cache is
that of an earlier inner range. -/
inductive InPiece (v : JoinWithView α) : Nat → Nat → JoinWithState α → Prop
  | inner {k j : Nat} (hk : k < v.outerEnd) :
    InPiece v (2 * k) j ⟨k, some (.inner j), cached v.glvalue (innerList v.rngs k)⟩
  | val {k j : Nat} {cache : Option (List α)} (hk : k + 1 < v.outerEnd)
    (hcache : v.glvalue = true → cache = none) :
    InPiece v (2 * k + 1) j ⟨k + 1, some (.val j), cache⟩

/-- The states before element `i` of the pieces. -/
def At (v : JoinWithView α) (i : Nat) (s : JoinWithState α) : Prop :=
  (∃ m j, m < v.pieces.length ∧ j < (innerList v.pieces m).length ∧ i = offset v.pieces m + j ∧
    InPiece v m j s) ∨ (i = v.pieces.flatten.length ∧ s.outerIt = v.outerEnd)

theorem InPiece.lt_length {v : JoinWithView α} {m j : Nat} {s : JoinWithState α}
    (h : InPiece v m j s) : m < v.pieces.length ∧ s.outerIt < v.outerEnd := by
  have hlength := v.length_pieces
  cases h with
  | inner hk => exact ⟨by omega, hk⟩
  | val hk _ => exact ⟨by omega, hk⟩

theorem At.outer_iff {v : JoinWithView α} {i : Nat} {s : JoinWithState α} (h : At v i s) :
    s.outerIt = v.outerEnd ↔ i = v.pieces.flatten.length := by
  rcases h with ⟨m, j, hm, hj, rfl, hs⟩ | ⟨hi, hs⟩
  · have hlt := offset_add_lt_length v.pieces hm hj
    have houter := hs.lt_length.2
    omega
  · exact ⟨fun _ => hi, fun _ => hs⟩

theorem At.inside {v : JoinWithView α} {i : Nat} {s : JoinWithState α} (h : At v i s)
    (hi : i < v.pieces.flatten.length) :
    ∃ m j, m < v.pieces.length ∧ j < (innerList v.pieces m).length ∧ i = offset v.pieces m + j ∧
      InPiece v m j s := by
  rcases h with hin | ⟨hend, _⟩
  · exact hin
  · omega

/-- `satisfy` leads over the end of a piece and the empty pieces behind it. -/
theorem satisfyFrom_spec {v : JoinWithView α} {fuel m j : Nat} {s : JoinWithState α}
    (h : InPiece v m j s) (hj : j ≤ (innerList v.pieces m).length)
    (hfuel : v.pieces.length - m ≤ fuel) :
    ∃ s', satisfyFrom v fuel s = .ok s' ∧ At v (offset v.pieces m + j) s' := by
  have hlength := v.length_pieces
  induction fuel generalizing m j s with
  | zero =>
    have := h.lt_length.1
    omega
  | succ fuel ih =>
    have hm := h.lt_length.1
    by_cases hend : j = (innerList v.pieces m).length
    · have hnext : offset v.pieces m + j = offset v.pieces (m + 1) + 0 := by
        rw [offset]
        omega
      rw [hnext]
      cases h with
      | inner hk =>
        rw [inner_pieces_even] at hend
        rw [satisfyFrom, getInner_eq v.glvalue hk, exec_bind_ok, if_neg (not_not_intro hend),
          incrTo_ok hk, exec_bind_ok]
        split
        next hlast =>
          refine ⟨_, rfl, .inr ⟨?_, hlast⟩⟩
          rw [← offset_length, hlength, ← hlast, Nat.add_zero]
          rfl
        next hmore =>
          apply ih (.val (by omega) ?_) (Nat.zero_le _) (by omega)
          intro hglvalue
          rw [cached, if_pos hglvalue]
      | val hk hcache =>
        rw [inner_pieces_odd v hk] at hend
        rw [satisfyFrom, if_neg (not_not_intro hend), updateInner_eq hk hcache, exec_bind_ok]
        exact ih (.inner hk) (Nat.zero_le _) (by omega)
    · refine ⟨s, ?_, .inl ⟨m, j, hm, by omega, rfl, h⟩⟩
      cases h with
      | inner hk =>
        rw [inner_pieces_even] at hend
        rw [satisfyFrom, getInner_eq v.glvalue hk, exec_bind_ok, if_pos hend]
      | val hk hcache =>
        rw [inner_pieces_odd v hk] at hend
        rw [satisfyFrom, if_pos hend]

theorem satisfy_spec {v : JoinWithView α} {m j : Nat} {s : JoinWithState α}
    (h : InPiece v m j s) (hj : j ≤ (innerList v.pieces m).length) :
    ∃ s', satisfy v s = .ok s' ∧ At v (offset v.pieces m + j) s' := by
  have hlength := v.length_pieces
  exact satisfyFrom_spec h hj (by omega)

theorem cursor_spec (v : JoinWithView α) : ∃ s, cursor v = .ok s ∧ At v 0 s := by
  unfold cursor
  split
  next hne =>
    have hpos : 0 < v.outerEnd := Nat.pos_of_ne_zero hne.symm
    rw [updateInner_eq hpos fun _ => rfl, exec_bind_ok]
    exact satisfy_spec (.inner hpos) (Nat.zero_le _)
  next hempty =>
    have hzero : v.outerEnd = 0 := (not_not.mp hempty).symm
    have hnone : v.rngs = [] := List.eq_nil_of_length_eq_zero hzero
    refine ⟨_, rfl, .inr ⟨?_, hzero.symm⟩⟩
    rw [pieces, hnone]
    rfl

theorem next_spec {v : JoinWithView α} {i : Nat} {s : JoinWithState α} (h : At v i s)
    (hi : i < v.pieces.flatten.length) : ∃ s', next v s = .ok s' ∧ At v (i + 1) s' := by
  obtain ⟨m, j, _, hj, rfl, hs⟩ := h.inside hi
  rw [Nat.add_assoc]
  cases hs with
  | inner hk =>
    have hlt := hj
    rw [inner_pieces_even] at hlt
    rw [next, getInner_eq v.glvalue hk, exec_bind_ok, incrTo_ok hlt, exec_bind_ok]
    exact satisfy_spec (.inner hk) hj
  | val hk hcache =>
    have hlt := hj
    rw [inner_pieces_odd v hk] at hlt
    rw [next, incrTo_ok hlt, exec_bind_ok]
    exact satisfy_spec (.val hk hcache) hj

theorem read_spec {v : JoinWithView α} {i : Nat} {s : JoinWithState α} {x : α} (h : At v i s)
    (hx : v.pieces.flatten[i]? = some x) : read v s = .ok x := by
  obtain ⟨m, j, _, hj, rfl, hs⟩ := h.inside (List.getElem?_eq_some_iff.mp hx).1
  rw [flatten_getElem? v.pieces hj] at hx
  cases hs with
  | inner hk =>
    rw [inner_pieces_even] at hx
    rw [read, getInner_eq v.glvalue hk, exec_bind_ok, deref_of_some hx]
  | val hk _ =>
    rw [inner_pieces_odd v hk] at hx
    rw [read, deref_of_some hx]

theorem loop_numbers (v : JoinWithView α) : (loop v).Numbers v.pieces.flatten (At v) := by
  refine ⟨⟨v.cursor_spec, fun i s h hi => next_spec h hi⟩, ?_, fun i s x h hx => read_spec h hx⟩
  intro i s h
  apply congrArg Except.ok
  rw [Bool.eq_iff_iff, beq_iff_eq, decide_eq_true_eq]
  exact h.outer_iff

/-- The loop over the view ends, having read the inner ranges with the delimiter between
every two neighbours. -/
theorem joinWithView_intercalate (v : JoinWithView α) :
    (loop v).Delivers (v.val.intercalate v.rngs) := by
  rw [← pieces_flatten]
  exact v.loop_numbers.delivers

end JoinWithView

end EARanges.View
