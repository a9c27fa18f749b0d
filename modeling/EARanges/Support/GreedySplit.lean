import Mathlib.Data.List.Basic

/-!
# Splitting a list at a pattern

From left to right, each piece ends where the pattern occurs next and the search goes on
behind that occurrence. An empty pattern cuts behind every element. A pattern at the very
end is not followed by an empty piece.
-/
namespace EARanges.Support

variable {α : Type} {pattern base piece : List α} {pieces : List (List α)}

/-- The pattern begins at index `i`. -/
def Occurs (pattern base : List α) (i : Nat) : Prop := pattern <+: base.drop i

/-- The leftmost split. Occurrences that overlap a chosen one do not count. -/
inductive GreedySplit (pattern : List α) : List α → List (List α) → Prop
  | nil : GreedySplit pattern [] []
  | single {x : α} {rest : List α} {pieces : List (List α)} (hempty : pattern = [])
    (h : GreedySplit pattern rest pieces) : GreedySplit pattern (x :: rest) ([x] :: pieces)
  | last {base : List α} (hpattern : pattern ≠ []) (hbase : base ≠ [])
    (hnone : ∀ i, ¬ Occurs pattern base i) : GreedySplit pattern base [base]
  | cut {piece rest : List α} {pieces : List (List α)} (hpattern : pattern ≠ [])
    (hleft : ∀ i < piece.length, ¬ Occurs pattern (piece ++ (pattern ++ rest)) i)
    (h : GreedySplit pattern rest pieces) :
    GreedySplit pattern (piece ++ (pattern ++ rest)) (piece :: pieces)

theorem GreedySplit.nil_iff (h : GreedySplit pattern base pieces) : pieces = [] ↔ base = [] := by
  cases h with
  | nil => exact ⟨fun _ => rfl, fun _ => rfl⟩
  | single => exact ⟨fun h => (by cases h), fun h => (by cases h)⟩
  | last hpattern hbase hnone => exact ⟨fun h => (by cases h), fun h => absurd h hbase⟩
  | cut hpattern hleft h =>
    refine ⟨fun h => (by cases h), fun h => ?_⟩
    have hrest := (List.append_eq_nil_iff.mp h).2
    exact absurd (List.append_eq_nil_iff.mp hrest).1 hpattern

theorem intercalate_cons_cons (sep x y : List α) (zs : List (List α)) :
    sep.intercalate (x :: y :: zs) = x ++ (sep ++ sep.intercalate (y :: zs)) := rfl

/-- The pieces with the pattern between them are the list again, up to a pattern at its
very end. -/
theorem GreedySplit.interleave (h : GreedySplit pattern base pieces) :
    base = pattern.intercalate pieces ∨ base = pattern.intercalate pieces ++ pattern := by
  induction h with
  | nil => exact .inl rfl
  | @single x rest pieces hempty h ih =>
    subst hempty
    have hrest : rest = ([] : List α).intercalate pieces := by
      rcases ih with ih | ih
      · exact ih
      · rwa [List.append_nil] at ih
    left
    cases pieces with
    | nil =>
      rw [h.nil_iff.mp rfl]
      rfl
    | cons piece pieces =>
      rw [intercalate_cons_cons, ← hrest]
      rfl
  | last => exact .inl (List.append_nil _).symm
  | @cut piece rest pieces hpattern hleft h ih =>
    cases pieces with
    | nil =>
      right
      rw [h.nil_iff.mp rfl, List.append_nil]
      congr 1
      exact (List.append_nil _).symm
    | cons piece' pieces =>
      rw [intercalate_cons_cons]
      rcases ih with ih | ih
      · exact .inl (by rw [← ih])
      · exact .inr (by rw [List.append_assoc, List.append_assoc, ← ih])

/-- An empty pattern cuts behind every element. -/
theorem GreedySplit.eq_singles (h : GreedySplit pattern base pieces) (hempty : pattern = []) :
    pieces = base.map fun x => [x] := by
  induction h with
  | nil => rfl
  | single _ _ ih => rw [ih, List.map_cons]
  | last hpattern => exact absurd hempty hpattern
  | cut hpattern => exact absurd hempty hpattern

/-! ## The leftmost occurrence -/

section
variable [DecidableEq α]

/-- The index of the leftmost occurrence, or the length if there is none. -/
def leftmost (pattern : List α) : List α → Nat
  | [] => 0
  | x :: xs => if pattern <+: x :: xs then 0 else leftmost pattern xs + 1

theorem leftmost_of_prefix (h : pattern <+: base) : leftmost pattern base = 0 := by
  cases base with
  | nil => rfl
  | cons x xs => exact if_pos h

theorem leftmost_drop_succ {i : Nat} (hi : i < base.length) (h : ¬ Occurs pattern base i) :
    leftmost pattern (base.drop i) = leftmost pattern (base.drop (i + 1)) + 1 := by
  rw [Occurs, List.drop_eq_getElem_cons hi] at h
  rw [List.drop_eq_getElem_cons hi]
  exact if_neg h

theorem leftmost_le (pattern base : List α) : leftmost pattern base ≤ base.length := by
  induction base with
  | nil => exact Nat.le_refl 0
  | cons x xs ih =>
    rw [leftmost]
    split
    · exact Nat.zero_le _
    · exact Nat.succ_le_succ ih

theorem not_occurs_of_lt {i : Nat} (h : i < leftmost pattern base) : ¬ Occurs pattern base i := by
  induction base generalizing i with
  | nil => exact absurd h (Nat.not_lt_zero i)
  | cons x xs ih =>
    rw [leftmost] at h
    split at h
    next => exact absurd h (Nat.not_lt_zero i)
    next hnot =>
      cases i with
      | zero => exact hnot
      | succ i => exact ih (Nat.lt_of_succ_lt_succ h)

theorem occurs_leftmost (h : leftmost pattern base < base.length) :
    Occurs pattern base (leftmost pattern base) := by
  induction base with
  | nil => exact absurd h (Nat.not_lt_zero _)
  | cons x xs ih =>
    rw [leftmost] at h ⊢
    split at h
    next hprefix =>
      rw [if_pos hprefix]
      exact hprefix
    next hnot =>
      rw [if_neg hnot]
      exact ih (Nat.lt_of_succ_lt_succ h)

theorem leftmost_eq {i : Nat} (hi : i ≤ base.length) (hleft : ∀ j < i, ¬ Occurs pattern base j)
    (hhere : i < base.length → Occurs pattern base i) : leftmost pattern base = i := by
  rcases Nat.lt_trichotomy (leftmost pattern base) i with hlt | heq | hgt
  · exact absurd (occurs_leftmost (Nat.lt_of_lt_of_le hlt hi)) (hleft _ hlt)
  · exact heq
  · have hlt : i < base.length := Nat.lt_of_lt_of_le hgt (leftmost_le pattern base)
    exact absurd (hhere hlt) (not_occurs_of_lt hgt)

/-- The length of the first piece of a list that is not empty. -/
def pieceLength (pattern base : List α) : Nat :=
  if pattern = [] then 1 else leftmost pattern base

/-- The first piece and what is split after it. -/
theorem GreedySplit.cons_inv (h : GreedySplit pattern base (piece :: pieces)) :
    piece = base.take (pieceLength pattern base) ∧ piece.length = pieceLength pattern base ∧
      GreedySplit pattern (base.drop (pieceLength pattern base + pattern.length)) pieces := by
  unfold pieceLength
  cases h with
  | single hempty h =>
    subst hempty
    exact ⟨rfl, rfl, h⟩
  | last hpattern hbase hnone =>
    have hlength : leftmost pattern base = base.length :=
      leftmost_eq (Nat.le_refl _) (fun j _ => hnone j) fun h => absurd h (Nat.lt_irrefl _)
    rw [if_neg hpattern, hlength, List.take_length, List.drop_of_length_le (Nat.le_add_right _ _)]
    exact ⟨rfl, rfl, .nil⟩
  | @cut piece rest _ hpattern hleft h =>
    have hlength : leftmost pattern (piece ++ (pattern ++ rest)) = piece.length := by
      apply leftmost_eq
      · rw [List.length_append]
        exact Nat.le_add_right _ _
      · exact hleft
      · intro _
        rw [Occurs, List.drop_left]
        exact List.prefix_append _ _
    rw [if_neg hpattern, hlength, List.take_left, ← List.drop_drop, List.drop_left, List.drop_left]
    exact ⟨rfl, rfl, h⟩

/-- There is one split only. -/
theorem GreedySplit.unique {pieces' : List (List α)} (h : GreedySplit pattern base pieces)
    (h' : GreedySplit pattern base pieces') : pieces = pieces' := by
  induction pieces generalizing base pieces' with
  | nil => exact (h'.nil_iff.mpr (h.nil_iff.mp rfl)).symm
  | cons piece pieces ih =>
    cases pieces' with
    | nil => exact h.nil_iff.mpr (h'.nil_iff.mp rfl)
    | cons piece' pieces' =>
      obtain ⟨hpiece, _, hrest⟩ := h.cons_inv
      obtain ⟨hpiece', _, hrest'⟩ := h'.cons_inv
      rw [hpiece, hpiece', ih hrest hrest']

/-- Every list has a split. -/
theorem exists_greedySplit (pattern base : List α) : ∃ pieces, GreedySplit pattern base pieces := by
  induction hlength : base.length using Nat.strongRecOn generalizing base with
  | ind length ih =>
    subst hlength
    by_cases hbase : base = []
    · rw [hbase]
      exact ⟨[], .nil⟩
    by_cases hempty : pattern = []
    · obtain ⟨x, rest, rfl⟩ := List.exists_cons_of_ne_nil hbase
      obtain ⟨pieces, h⟩ := ih rest.length (Nat.lt_succ_self _) rest rfl
      exact ⟨[x] :: pieces, .single hempty h⟩
    by_cases hlt : leftmost pattern base < base.length
    · obtain ⟨rest, hrest⟩ := occurs_leftmost hlt
      have hsplit : base = base.take (leftmost pattern base) ++ (pattern ++ rest) := by
        rw [hrest, List.take_append_drop]
      have htake : (base.take (leftmost pattern base)).length = leftmost pattern base :=
        List.length_take_of_le (leftmost_le pattern base)
      have hshorter : rest.length < base.length := by
        have hpos : 0 < pattern.length := List.length_pos_iff.mpr hempty
        have hsum := congrArg List.length hsplit
        rw [List.length_append, List.length_append] at hsum
        omega
      obtain ⟨pieces, h⟩ := ih rest.length hshorter rest rfl
      refine ⟨base.take (leftmost pattern base) :: pieces, ?_⟩
      have hleft : ∀ i < (base.take (leftmost pattern base)).length,
          ¬ Occurs pattern (base.take (leftmost pattern base) ++ (pattern ++ rest)) i := by
        intro i hi
        rw [← hsplit]
        exact not_occurs_of_lt (htake ▸ hi)
      have hcut := GreedySplit.cut hempty hleft h
      rwa [← hsplit] at hcut
    · have hnone : leftmost pattern base = base.length :=
        Nat.le_antisymm (leftmost_le pattern base) (Nat.not_lt.mp hlt)
      refine ⟨[base], .last hempty hbase fun i => ?_⟩
      by_cases hi : i < base.length
      · exact not_occurs_of_lt (hnone ▸ hi)
      · rw [Occurs, List.drop_of_length_le (Nat.not_lt.mp hi), List.prefix_nil]
        exact hempty

end

end EARanges.Support
