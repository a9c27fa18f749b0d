import EARanges.Algorithm.Mismatch
import EARanges.Support.GreedySplit
import EARanges.Support.InPlace
import EARanges.Support.Numbered

/-!
# `split_view`

view/split.hpp, over a forward base: an outer iterator has its own position in the base,
and an inner iterator starts as a copy of the outer one. Two scanners look for the
pattern: `done_` of the inner iterator tells whether it begins here, the increment of the
outer iterator goes to the next place where it does. The loop of the latter takes a bound
on its turns, which is never reached.
-/
namespace EARanges.View
open EARanges.Support EARanges.Algorithm

structure SplitView (α : Type) where
  base : List α
  pattern : List α

/-- `split_inner_iterator`, with the `curr_` of its `i_`. -/
structure SplitInnerIterator where
  curr : Nat
  incremented : Bool
  deriving DecidableEq, Repr

namespace SplitView

variable {α : Type} [DecidableEq α]

/-- The index of `end(base_)`. -/
def last (v : SplitView α) : Nat := v.base.length

/-- The loop of `done_` on the rest of the base and of the pattern. -/
def patternAt : List α → List α → Exec Bool
  | cur :: rest, pcur :: prest =>
    if cur ≠ pcur then .ok false
    else if prest = [] then .ok true
    else if rest = [] then .ok false
    else patternAt rest prest
  | _, _ => .error .fault

/-- `done_`. -/
def done (v : SplitView α) (it : SplitInnerIterator) : Exec Bool :=
  if it.curr = v.last then .ok true
  else if v.pattern = [] then .ok it.incremented
  else patternAt (v.base.drop it.curr) v.pattern

/-- `operator++` of the inner iterator. -/
def innerNext (v : SplitView α) (it : SplitInnerIterator) : Exec SplitInnerIterator := do
  let curr ← incrTo v.last it.curr
  .ok ⟨curr, true⟩

/-- The loop over the inner range that the outer iterator at `curr` refers to. -/
def innerLoop (v : SplitView α) (curr : Nat) : Loop SplitInnerIterator α where
  start := .ok ⟨curr, false⟩
  atEnd := done v
  read it := deref v.base it.curr
  next := innerNext v

/-- The loop of the outer `operator++`. -/
def skipFrom (v : SplitView α) : Nat → Nat → Exec Nat
  | 0, _ => .error .fuel
  | fuel + 1, current => do
    let m := mismatch (fun x y => decide (x = y)) id id (v.base.drop current) v.pattern
    if m.2 = [] then .ok (v.last - m.1.length)
    else
      let current ← incrTo v.last current
      if current ≠ v.last then skipFrom v fuel current else .ok current

/-- `operator++` of the outer iterator. -/
def outerNext (v : SplitView α) (current : Nat) : Exec Nat :=
  if current = v.last then .ok current
  else if v.pattern = [] then incrTo v.last current
  else skipFrom v v.last current

/-- Where the loop of a reader is: at piece number `index`, with its outer iterator. -/
structure Reader where
  index : Nat
  it : Nat
  deriving DecidableEq, Repr

/-- A loop over the view that reads at most `amount i` elements of piece number `i`. -/
def reader (v : SplitView α) (amount : Nat → Nat) : Loop Reader (List α) where
  start := .ok ⟨0, 0⟩
  atEnd s := .ok (s.it == v.last)
  read s := (innerLoop v s.it).firstElements (amount s.index)
  next s := do
    let it ← outerNext v s.it
    .ok ⟨s.index + 1, it⟩

/-! ## The two scanners -/

theorem patternAt_eq {rest prest : List α} (hrest : rest ≠ []) (hprest : prest ≠ []) :
    patternAt rest prest = .ok (decide (prest <+: rest)) := by
  induction rest generalizing prest with
  | nil => exact absurd rfl hrest
  | cons cur rest ih =>
    cases prest with
    | nil => exact absurd rfl hprest
    | cons pcur prest =>
      rw [patternAt]
      by_cases hcur : cur = pcur
      · rw [if_neg (not_not_intro hcur)]
        by_cases hpend : prest = []
        · rw [if_pos hpend, hpend, hcur, decide_eq_true]
          exact List.cons_prefix_cons.mpr ⟨rfl, List.nil_prefix⟩
        rw [if_neg hpend]
        by_cases hend : rest = []
        · rw [if_pos hend, hend, decide_eq_false]
          intro h
          exact hpend (List.prefix_nil.mp (List.cons_prefix_cons.mp h).2)
        rw [if_neg hend, ih hend hpend]
        congr 1
        rw [Bool.eq_iff_iff, decide_eq_true_eq, decide_eq_true_eq, List.cons_prefix_cons]
        exact ⟨fun h => ⟨hcur.symm, h⟩, fun h => h.2⟩
      · rw [if_pos hcur, decide_eq_false]
        exact fun h => hcur (List.cons_prefix_cons.mp h).1.symm

theorem skipFrom_eq {v : SplitView α} {fuel current : Nat}
    (hcurrent : current < v.last) (hfuel : v.last - current ≤ fuel) :
    skipFrom v fuel current =
      .ok (min (current + leftmost v.pattern (v.base.drop current) + v.pattern.length) v.last) := by
  induction fuel generalizing current with
  | zero => omega
  | succ fuel ih =>
    rw [skipFrom]
    by_cases hmatch : Occurs v.pattern v.base current
    · obtain ⟨rest, hrest⟩ := hmatch
      have hlength : v.last - current = v.pattern.length + rest.length := by
        rw [last, ← List.length_drop, ← hrest, List.length_append]
      have hleftmost : leftmost v.pattern (v.base.drop current) = 0 :=
        leftmost_of_prefix ⟨rest, hrest⟩
      rw [hleftmost, ← hrest, mismatch_append, if_pos rfl, Nat.add_zero, Nat.min_eq_left]
      · congr 1
        dsimp only
        omega
      · omega
    · rw [if_neg fun h => hmatch (prefix_of_mismatch h), incrTo_ok hcurrent, exec_bind_ok,
        leftmost_drop_succ hcurrent hmatch]
      by_cases hend : current + 1 = v.last
      · rw [if_neg (not_not_intro hend)]
        congr 1
        omega
      · rw [if_pos hend, ih (by omega) (by omega)]
        congr 2
        omega

/-- The outer iterator goes over the piece it stands at and the pattern behind it. -/
theorem outerNext_eq {v : SplitView α} {current : Nat} (hcurrent : current < v.last) :
    outerNext v current = .ok
      (min (current + pieceLength v.pattern (v.base.drop current) + v.pattern.length) v.last) := by
  rw [outerNext, if_neg (Nat.ne_of_lt hcurrent), pieceLength]
  by_cases hempty : v.pattern = []
  · rw [if_pos hempty, if_pos hempty, incrTo_ok hcurrent, hempty]
    congr 1
    rw [List.length_nil]
    omega
  · rw [if_neg hempty, if_neg hempty]
    exact skipFrom_eq hcurrent (Nat.sub_le _ _)

/-- What the outer iterator at `curr` refers to. -/
def pieceAt (v : SplitView α) (curr : Nat) : List α :=
  (v.base.drop curr).take (pieceLength v.pattern (v.base.drop curr))

theorem pieceLength_le {v : SplitView α} {curr : Nat} (hcurr : curr < v.last) :
    curr + pieceLength v.pattern (v.base.drop curr) ≤ v.last := by
  unfold pieceLength
  split
  · exact hcurr
  · have hle := leftmost_le v.pattern (v.base.drop curr)
    rw [List.length_drop] at hle
    unfold last at hcurr ⊢
    omega

theorem length_pieceAt {v : SplitView α} {curr : Nat} (hcurr : curr < v.last) :
    (pieceAt v curr).length = pieceLength v.pattern (v.base.drop curr) := by
  have hle := pieceLength_le hcurr
  rw [pieceAt, List.length_take, List.length_drop]
  unfold last at hle
  omega

/-- The inner iterator after `j` increments. -/
def innerAt (curr j : Nat) (it : SplitInnerIterator) : Prop :=
  it = ⟨curr + j, decide (0 < j)⟩

/-- The inner iterator is done where the piece ends, and not before. -/
theorem done_eq {v : SplitView α} {curr j : Nat} (hcurr : curr < v.last)
    (hj : j ≤ (pieceAt v curr).length) :
    done v ⟨curr + j, decide (0 < j)⟩ = .ok (decide (j = (pieceAt v curr).length)) := by
  have hle := pieceLength_le hcurr
  rw [length_pieceAt hcurr] at hj ⊢
  rw [done]
  dsimp only
  by_cases hempty : v.pattern = []
  · have hone : pieceLength v.pattern (v.base.drop curr) = 1 := if_pos hempty
    rw [hone] at hj hle ⊢
    rw [if_pos hempty]
    split
    · rw [decide_eq_true (by omega)]
    · congr 1
      rw [Bool.eq_iff_iff, decide_eq_true_eq, decide_eq_true_eq]
      omega
  · have hlength : pieceLength v.pattern (v.base.drop curr) =
        leftmost v.pattern (v.base.drop curr) := if_neg hempty
    rw [hlength] at hj hle ⊢
    by_cases hlast : curr + j = v.last
    · rw [if_pos hlast, decide_eq_true]
      unfold last at hlast hle
      omega
    · have hrest : v.base.drop (curr + j) ≠ [] := by
        intro h
        rw [List.drop_eq_nil_iff] at h
        unfold last at hlast hle
        omega
      rw [if_neg hlast, if_neg hempty, patternAt_eq hrest hempty]
      congr 1
      rw [Bool.eq_iff_iff, decide_eq_true_eq, decide_eq_true_eq, ← List.drop_drop]
      constructor
      · intro hoccurs
        by_contra hne
        exact not_occurs_of_lt (by omega) hoccurs
      · rintro rfl
        apply occurs_leftmost
        rw [List.length_drop]
        unfold last at hlast hle
        omega

theorem innerLoop_numbers {v : SplitView α} {curr : Nat} (hcurr : curr < v.last) :
    (innerLoop v curr).Numbers (pieceAt v curr)
      fun j it => j ≤ (pieceAt v curr).length ∧ innerAt curr j it := by
  have hle := pieceLength_le hcurr
  have hlength := length_pieceAt hcurr
  refine ⟨⟨⟨_, rfl, Nat.zero_le _, rfl⟩, ?_⟩, ?_, ?_⟩
  · rintro j _ ⟨_, rfl⟩ hj
    refine ⟨⟨curr + (j + 1), true⟩, ?_, hj, ?_⟩
    · have hincr : incrTo v.last (curr + j) = .ok (curr + j + 1) := incrTo_ok (by omega)
      simp only [innerLoop, innerNext, hincr, exec_bind_ok, Nat.add_assoc]
    · rw [innerAt, decide_eq_true (Nat.succ_pos j)]
  · rintro j _ ⟨hj, rfl⟩
    exact done_eq hcurr hj
  · rintro j _ x ⟨_, rfl⟩ hx
    apply deref_of_some
    obtain ⟨hlt, _⟩ := List.getElem?_eq_some_iff.mp hx
    rw [pieceAt, List.getElem?_take_of_lt (hlength ▸ hlt), List.getElem?_drop] at hx
    exact hx

/-! ## The split -/

/-- The reader before piece number `i`. -/
structure At (v : SplitView α) (pieces : List (List α)) (i : Nat) (s : Reader) : Prop where
  index_eq : s.index = i
  index_le : i ≤ pieces.length
  it_le : s.it ≤ v.last
  rest : GreedySplit v.pattern (v.base.drop s.it) (pieces.drop i)

omit [DecidableEq α] in
theorem At.it_eq_iff {v : SplitView α} {pieces : List (List α)} {i : Nat} {s : Reader}
    (h : At v pieces i s) : s.it = v.last ↔ i = pieces.length := by
  have hle := h.it_le
  have hindex := h.index_le
  have hempty := h.rest.nil_iff
  rw [List.drop_eq_nil_iff, List.drop_eq_nil_iff] at hempty
  unfold last at hle ⊢
  omega

/-- The next piece is the one at the outer iterator, and the rest of the split begins where
its increment leads. -/
theorem At.piece {v : SplitView α} {pieces : List (List α)} {i : Nat} {s : Reader}
    (h : At v pieces i s) (hi : i < pieces.length) :
    s.it < v.last ∧ pieces[i] = pieceAt v s.it ∧
      ∃ it, outerNext v s.it = .ok it ∧ At v pieces (i + 1) ⟨s.index + 1, it⟩ := by
  have hlt : s.it < v.last := by
    have hend := h.it_eq_iff
    have hle := h.it_le
    omega
  have hrest := h.rest
  rw [List.drop_eq_getElem_cons hi] at hrest
  obtain ⟨hpiece, _, hnext⟩ := hrest.cons_inv
  refine ⟨hlt, hpiece, _, outerNext_eq hlt, congrArg Nat.succ h.index_eq, hi,
    Nat.min_le_right _ _, ?_⟩
  rw [List.drop_drop, ← Nat.add_assoc] at hnext
  dsimp only
  rcases Nat.le_total (s.it + pieceLength v.pattern (v.base.drop s.it) + v.pattern.length) v.last
    with hin | hout
  · rwa [Nat.min_eq_left hin]
  · rw [List.drop_of_length_le hout] at hnext
    have hend : v.base.drop v.last = [] := List.drop_length
    rwa [Nat.min_eq_right hout, hend]

theorem reader_numbers {v : SplitView α} {pieces : List (List α)}
    (h : GreedySplit v.pattern v.base pieces) (amount : Nat → Nat) :
    (reader v amount).Numbers (pieces.mapIdx fun i piece => piece.take (amount i))
      (At v pieces) := by
  refine ⟨⟨⟨_, rfl, rfl, Nat.zero_le _, Nat.zero_le _, h⟩, ?_⟩, ?_, ?_⟩
  · intro i s hat hi
    rw [List.length_mapIdx] at hi
    obtain ⟨_, _, it, hnext, hat'⟩ := hat.piece hi
    exact ⟨_, by simp only [reader, hnext, exec_bind_ok], hat'⟩
  · intro i s hat
    rw [List.length_mapIdx]
    apply congrArg Except.ok
    rw [Bool.eq_iff_iff, beq_iff_eq, decide_eq_true_eq]
    exact hat.it_eq_iff
  · intro i s x hat hx
    rw [List.getElem?_mapIdx] at hx
    obtain ⟨piece, hpiece, rfl⟩ := Option.map_eq_some_iff.mp hx
    obtain ⟨hi, rfl⟩ := List.getElem?_eq_some_iff.mp hpiece
    obtain ⟨hlt, heq, _⟩ := hat.piece hi
    have hread := (innerLoop_numbers hlt).firstElements_eq (amount s.index)
    rw [← heq, hat.index_eq] at hread
    rw [← hread, ← hat.index_eq]
    rfl

/-- Loops over the view deliver the leftmost split, whether they read the pieces to their
ends or not, and both scanners agree on where a piece ends. -/
structure SplitLaw (v : SplitView α) (pieces : List (List α)) : Prop where
  greedy : GreedySplit v.pattern v.base pieces
  unique : ∀ pieces', GreedySplit v.pattern v.base pieces' → pieces' = pieces
  reading : ∀ amount, (reader v amount).Delivers
    (pieces.mapIdx fun i piece => piece.take (amount i))
  agree : ∀ amount i (hi : i < pieces.length), ∃ s, (reader v amount).nth i = .ok s ∧
    (innerLoop v s.it).Delivers pieces[i] ∧
    outerNext v s.it = .ok (min (s.it + pieces[i].length + v.pattern.length) v.last)
  interleave : v.base = v.pattern.intercalate pieces ∨
    v.base = v.pattern.intercalate pieces ++ v.pattern
  singles : v.pattern = [] → pieces = v.base.map fun x => [x]

theorem splitView_greedy (v : SplitView α) : ∃ pieces, SplitLaw v pieces := by
  obtain ⟨pieces, h⟩ := exists_greedySplit v.pattern v.base
  have hnumbers := reader_numbers h
  refine ⟨pieces, h, fun _ h' => h'.unique h, fun amount => (hnumbers amount).delivers, ?_,
    h.interleave, fun hempty => h.eq_singles hempty⟩
  intro amount i hi
  have hle : i ≤ (pieces.mapIdx fun i piece => piece.take (amount i)).length := by
    rw [List.length_mapIdx]
    exact Nat.le_of_lt hi
  obtain ⟨s, hrun, hat⟩ := (hnumbers amount).nth_eq hle
  obtain ⟨hlt, hpiece, _⟩ := hat.piece hi
  refine ⟨s, hrun, hpiece ▸ (innerLoop_numbers hlt).delivers, ?_⟩
  rw [hpiece, length_pieceAt hlt]
  exact outerNext_eq hlt

end SplitView

end EARanges.View
