import EARanges.Algorithm.AdjacentRemoveIf
import EARanges.Iterator.RangeTraits
import EARanges.Support.Nested
import EARanges.Support.Numbered
import Mathlib.Data.List.SplitBy

/-!
# `chunk_by_view`

view/chunk_by.hpp, over a forward base. A cursor is the piece it stands at, as two iterators of
the base. The end of a piece is one step behind what `adjacent_find` returns for the negated
relation; that of the first piece is memoised.
-/
namespace EARanges.View
open EARanges.Support EARanges.Algorithm EARanges.Iterator

structure ChunkByView (α : Type) where
  base : List α
  fun_ : α → α → Bool

structure ChunkByCursor where
  cur : Nat
  nextCur : Nat
  deriving DecidableEq, Repr

namespace ChunkByView

variable {α : Type}

/-- `adjacent_find(first, last, not_fn(fun_))`. -/
def findFailing (v : ChunkByView α) (first : Nat) : Exec Nat :=
  if first = v.base.length then .ok first
  else adjacentFindLoop (fun x y => !v.fun_ x y) id v.base v.base.length first

/-- `partition_cur != last ? next(partition_cur) : partition_cur`. -/
def pieceEnd (v : ChunkByView α) (first : Nat) : Exec Nat := do
  let partitionCur ← findFailing v first
  if partitionCur ≠ v.base.length then incr v.base partitionCur else .ok partitionCur

/-- `begin_cursor`, with `second_` before and after. -/
def beginCursor (v : ChunkByView α) (second : Option Nat) : Exec (Option Nat × ChunkByCursor) := do
  let (second, nextCur) ← memoised second (pieceEnd v 0)
  .ok (second, ⟨0, nextCur⟩)

/-- The elements of `subrange{cur_, next_cur_}`. -/
def read (v : ChunkByView α) (c : ChunkByCursor) : Exec (List α) :=
  if c.cur ≤ c.nextCur ∧ c.nextCur ≤ v.base.length then
    .ok ((v.base.drop c.cur).take (c.nextCur - c.cur))
  else .error .fault

def next (v : ChunkByView α) (c : ChunkByCursor) : Exec ChunkByCursor := do
  let cur := c.nextCur
  let nextCur ← pieceEnd v cur
  .ok ⟨cur, nextCur⟩

/-- A loop over the view that finds `second_` as given. -/
def loop (v : ChunkByView α) (second : Option Nat) : Loop ChunkByCursor (List α) where
  start := do
    let (_, c) ← beginCursor v second
    .ok c
  atEnd c := .ok (decide (c.cur = v.base.length))
  read := read v
  next := next v

/-- What `second_` can be: calls of `begin` have filled it. -/
inductive Cached (v : ChunkByView α) : Option Nat → Prop
  | fresh : Cached v none
  | begin_ {second second' : Option Nat} {c : ChunkByCursor} :
      Cached v second → beginCursor v second = .ok (second', c) → Cached v second'

/-- Pieces that cannot be longer: the relation holds between neighbours inside of each, and
fails from each to the next. -/
structure MaximalPartition (rel : α → α → Bool) (base : List α) (pieces : List (List α)) :
    Prop where
  flatten_eq : pieces.flatten = base
  nonempty : ∀ piece ∈ pieces, piece ≠ []
  inside : ∀ piece ∈ pieces, piece.IsChain fun x y => rel x y = true
  between : pieces.IsChain fun piece piece' =>
    ∃ h h', rel (piece.getLast h) (piece'.head h') = false

theorem maximalPartition_iff {rel : α → α → Bool} {base : List α} {pieces : List (List α)} :
    MaximalPartition rel base pieces ↔ pieces = base.splitBy rel := by
  rw [eq_comm, List.splitBy_eq_iff]
  constructor
  · intro h
    exact ⟨h.flatten_eq.symm, fun hnil => h.nonempty [] hnil rfl, h.inside, h.between⟩
  · rintro ⟨hflatten, hnil, hinside, hbetween⟩
    refine ⟨hflatten.symm, fun piece hmem hempty => hnil ?_, hinside, hbetween⟩
    rwa [← hempty]

variable {v : ChunkByView α}

/-- From the first element of a piece the search goes to its last, or to the end. -/
theorem adjacentFindLoop_piece (rel : α → α → Bool) {a : List α} {x : α} {piece c : List α}
    {fuel : Nat} (hinside : (x :: piece).IsChain fun x y => rel x y = true)
    (hbetween : ∀ y ∈ c.head?, rel ((x :: piece).getLast (List.cons_ne_nil _ _)) y = false)
    (hfuel : piece.length < fuel) :
    adjacentFindLoop (fun x y => !rel x y) id (a ++ (x :: piece ++ c)) fuel a.length =
      .ok (a.length + piece.length + if c = [] then 1 else 0) := by
  induction piece generalizing a x fuel with
  | nil =>
    obtain ⟨fuel, rfl⟩ : ∃ n, fuel = n + 1 := ⟨fuel - 1, by omega⟩
    cases c with
    | nil =>
      rw [List.append_nil, adjacentFindLoop_last, if_pos rfl]
      rfl
    | cons y c =>
      have hrel : rel x y = false := hbetween y rfl
      rw [List.singleton_append, adjacentFindLoop_turn, if_pos (by simpa using hrel),
        if_neg (List.cons_ne_nil y c)]
      rfl
  | cons y piece ih =>
    obtain ⟨fuel, rfl⟩ : ∃ n, fuel = n + 1 := ⟨fuel - 1, by omega⟩
    obtain ⟨hrel, hinside⟩ := List.isChain_cons_cons.mp hinside
    rw [List.getLast_cons_cons] at hbetween
    have hrest := ih (a := a ++ [x]) hinside hbetween (Nat.lt_of_succ_lt_succ hfuel)
    rw [List.cons_append, List.cons_append, adjacentFindLoop_turn, if_neg (by simp [hrel]),
      ← List.cons_append, hrest, List.length_append, List.length_singleton, List.length_cons,
      Nat.add_right_comm a.length, Nat.add_assoc a.length]

theorem pieceEnd_piece {a piece c : List α} (hbase : v.base = a ++ (piece ++ c))
    (hne : piece ≠ []) (hinside : piece.IsChain fun x y => v.fun_ x y = true)
    (hbetween : ∀ y ∈ c.head?, v.fun_ (piece.getLast hne) y = false) :
    pieceEnd v a.length = .ok (a.length + piece.length) := by
  obtain ⟨x, piece, rfl⟩ := List.exists_cons_of_ne_nil hne
  have hlength : v.base.length = a.length + (piece.length + 1 + c.length) := by
    rw [hbase, List.length_append, List.length_append, List.length_cons]
  have hfind : findFailing v a.length =
      .ok (a.length + piece.length + if c = [] then 1 else 0) := by
    rw [findFailing, if_neg (by omega)]
    have hrun := adjacentFindLoop_piece v.fun_ (a := a) (c := c) hinside hbetween
      (by omega : piece.length < v.base.length)
    rwa [← hbase] at hrun
  rw [pieceEnd, hfind, exec_bind_ok, List.length_cons]
  by_cases hc : c = []
  · rw [hc, List.length_nil] at hlength
    rw [if_pos hc, if_neg (by omega), Nat.add_assoc]
  · have hpos := List.length_pos_iff.mpr hc
    rw [if_neg hc, if_pos (by omega), incr_ok (by omega)]
    rfl

/-- The pieces before number `i` and the next one. -/
theorem pieceEnd_take {pieces : List (List α)} (h : MaximalPartition v.fun_ v.base pieces) {i : Nat}
    (hi : i ≤ pieces.length) :
    pieceEnd v (pieces.take i).flatten.length = .ok (pieces.take (i + 1)).flatten.length := by
  obtain hlt | rfl := Nat.lt_or_eq_of_le hi
  · have hdrop := List.drop_eq_getElem_cons hlt
    have hbase := h.flatten_eq.symm.trans (flatten_cut pieces hlt)
    have hmem : pieces[i] ∈ pieces := List.getElem_mem hlt
    have hne := h.nonempty _ hmem
    have hbetween : ∀ y ∈ (pieces.drop (i + 1)).flatten.head?,
        v.fun_ (pieces[i].getLast hne) y = false := by
      intro y hy
      have hchain := h.between.drop i
      rw [hdrop] at hchain
      cases hrest : pieces.drop (i + 1) with
      | nil =>
        rw [hrest] at hy
        cases hy
      | cons piece' rest =>
        rw [hrest] at hy hchain
        obtain ⟨⟨_, hne', hrel⟩, _⟩ := List.isChain_cons_cons.mp hchain
        rw [List.flatten_cons, List.head?_append_of_ne_nil _ hne', List.head?_eq_some_head hne',
          Option.mem_some_iff] at hy
        rwa [← hy]
    rw [pieceEnd_piece hbase hne (h.inside _ hmem) hbetween, flatten_take_succ pieces hlt,
      List.length_append]
  · have hend : (pieces.take pieces.length).flatten.length = v.base.length := by
      rw [List.take_length, h.flatten_eq]
    have hend' : (pieces.take (pieces.length + 1)).flatten.length = v.base.length := by
      rw [List.take_of_length_le (Nat.le_succ _), h.flatten_eq]
    rw [hend, hend', pieceEnd, findFailing, if_pos rfl, exec_bind_ok, if_neg (not_not_intro rfl)]

theorem read_piece {pieces : List (List α)} (hflatten : pieces.flatten = v.base) {i : Nat}
    {piece : List α} (hpiece : pieces[i]? = some piece) :
    read v ⟨(pieces.take i).flatten.length, (pieces.take (i + 1)).flatten.length⟩ = .ok piece := by
  obtain ⟨hlt, rfl⟩ := List.getElem?_eq_some_iff.mp hpiece
  have hbase := hflatten.symm.trans (flatten_cut pieces hlt)
  have hlength := congrArg List.length hbase
  rw [List.length_append, List.length_append] at hlength
  rw [flatten_take_succ pieces hlt, List.length_append, read]
  dsimp only
  rw [if_pos ⟨Nat.le_add_right _ _, by omega⟩, hbase, List.drop_left, Nat.add_sub_cancel_left,
    List.take_left]

/-- The cursor at piece number `i`, or at the end. -/
structure At (pieces : List (List α)) (i : Nat) (c : ChunkByCursor) : Prop where
  le : i ≤ pieces.length
  cur : c.cur = (pieces.take i).flatten.length
  nextCur : c.nextCur = (pieces.take (i + 1)).flatten.length

theorem At.atEnd_iff {pieces : List (List α)} {i : Nat} {c : ChunkByCursor}
    (h : MaximalPartition v.fun_ v.base pieces) (hat : At pieces i c) :
    c.cur = v.base.length ↔ i = pieces.length := by
  rw [hat.cur]
  constructor
  · intro hend
    by_contra hne
    have hlt := Nat.lt_of_le_of_ne hat.le hne
    have hlength := congrArg List.length (h.flatten_eq.symm.trans (flatten_cut pieces hlt))
    have hpos := List.length_pos_iff.mpr (h.nonempty _ (List.getElem_mem hlt))
    rw [List.length_append, List.length_append] at hlength
    omega
  · rintro rfl
    rw [List.take_length, h.flatten_eq]

theorem Cached.beginCursor_eq {pieces : List (List α)} {second : Option Nat}
    (h : MaximalPartition v.fun_ v.base pieces) (hcached : Cached v second) :
    (second = none ∨ second = some (pieces.take 1).flatten.length) ∧
      beginCursor v second = .ok (some (pieces.take 1).flatten.length,
        ⟨0, (pieces.take 1).flatten.length⟩) := by
  have hend : pieceEnd v 0 = .ok (pieces.take 1).flatten.length := pieceEnd_take h (Nat.zero_le _)
  have hrun : ∀ second, second = none ∨ second = some (pieces.take 1).flatten.length →
      beginCursor v second = .ok (some (pieces.take 1).flatten.length,
        ⟨0, (pieces.take 1).flatten.length⟩) := by
    intro second hsecond
    rw [beginCursor, memoised_eq hsecond hend]
    rfl
  induction hcached with
  | fresh => exact ⟨.inl rfl, hrun none (.inl rfl)⟩
  | begin_ _ hbegin ih =>
    rw [ih.2] at hbegin
    obtain ⟨rfl, -⟩ := Prod.mk.inj (Except.ok.inj hbegin)
    exact ⟨.inr rfl, hrun _ (.inr rfl)⟩

theorem loop_numbers {pieces : List (List α)} {second : Option Nat}
    (h : MaximalPartition v.fun_ v.base pieces) (hcached : Cached v second) :
    (loop v second).Numbers pieces (At pieces) where
  start := by
    refine ⟨⟨0, (pieces.take 1).flatten.length⟩, ?_, Nat.zero_le _, rfl, rfl⟩
    simp only [loop, (hcached.beginCursor_eq h).2, exec_bind_ok]
  next := by
    rintro i ⟨cur, nextCur⟩ ⟨_, rfl, rfl⟩ hi
    refine ⟨⟨_, (pieces.take (i + 1 + 1)).flatten.length⟩, ?_, hi, rfl, rfl⟩
    simp only [loop, next, pieceEnd_take h hi, exec_bind_ok]
  atEnd i c hat := congrArg Except.ok (decide_eq_decide.mpr (hat.atEnd_iff h))
  read := by
    rintro i ⟨cur, nextCur⟩ piece ⟨_, rfl, rfl⟩ hpiece
    exact read_piece h.flatten_eq hpiece

/-- The view yields the one maximal partition of its base, whatever earlier calls of `begin` have
memoised. -/
theorem chunksBy (v : ChunkByView α) :
    ∃ pieces, MaximalPartition v.fun_ v.base pieces ∧
      (∀ pieces', MaximalPartition v.fun_ v.base pieces' → pieces' = pieces) ∧
      (v.base = [] → pieces = []) ∧
      ∃ second first, ∀ cache, Cached v cache →
        beginCursor v cache = .ok (some second, first) ∧ (loop v cache).Delivers pieces := by
  have h : MaximalPartition v.fun_ v.base (v.base.splitBy v.fun_) := maximalPartition_iff.mpr rfl
  refine ⟨v.base.splitBy v.fun_, h, fun pieces' h' => maximalPartition_iff.mp h', ?_, _, _,
    fun cache hcached => ⟨(hcached.beginCursor_eq h).2, (loop_numbers h hcached).delivers⟩⟩
  intro hempty
  rw [hempty]
  rfl

/-- Singletons, and a neighbour pair that fails at the very end. -/
example : (loop ⟨[5, 1, 2, 2, 0], fun x y => decide (x ≤ y)⟩ none).elements 5 =
    .ok [[5], [1, 2, 2], [0]] := by decide

end ChunkByView

end EARanges.View
