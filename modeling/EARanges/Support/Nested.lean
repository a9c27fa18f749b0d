import Mathlib.Data.List.Basic

/-!
# Positions in a list of lists

Position `j` of the inner list number `k` is position `offset ls k + j` of the
flattened list. Inner lists may be empty, so a position of the flattened list can be
reached in several ways; the way inside an inner list is unique.
-/
namespace EARanges.Support

variable {α : Type}

/-- Inner list number `k`, empty behind the last. -/
def innerList (ls : List (List α)) (k : Nat) : List α := ls.getD k []

/-- How many elements the inner lists before number `k` have. -/
def offset (ls : List (List α)) : Nat → Nat
  | 0 => 0
  | k + 1 => offset ls k + (innerList ls k).length

theorem offset_cons (l : List α) (ls : List (List α)) (k : Nat) :
    offset (l :: ls) (k + 1) = l.length + offset ls k := by
  induction k with
  | zero => exact Nat.zero_add _
  | succ k ih =>
    have hinner : innerList (l :: ls) (k + 1) = innerList ls k := List.getD_cons_succ
    rw [offset, ih, hinner, Nat.add_assoc]
    rfl

theorem offset_length (ls : List (List α)) : offset ls ls.length = ls.flatten.length := by
  induction ls with
  | nil => rfl
  | cons l ls ih => rw [List.length_cons, offset_cons, ih, List.flatten_cons, List.length_append]

theorem offset_mono (ls : List (List α)) {k k' : Nat} (h : k ≤ k') :
    offset ls k ≤ offset ls k' := by
  induction h with
  | refl => exact Nat.le_refl _
  | step _ ih => exact Nat.le_trans ih (Nat.le_add_right _ _)

/-- Whatever lies inside an inner list lies before the next ones. -/
theorem offset_add_lt (ls : List (List α)) {k k' j : Nat} (h : k < k')
    (hj : j < (innerList ls k).length) : offset ls k + j < offset ls k' := by
  have hnext : offset ls (k + 1) ≤ offset ls k' := offset_mono ls h
  have hstep : offset ls (k + 1) = offset ls k + (innerList ls k).length := rfl
  omega

/-- A position inside an inner list is reached in one way. -/
theorem offset_add_inj (ls : List (List α)) {k k' j j' : Nat} (hj : j < (innerList ls k).length)
    (hj' : j' < (innerList ls k').length) (h : offset ls k + j = offset ls k' + j') :
    k = k' ∧ j = j' := by
  rcases Nat.lt_trichotomy k k' with hlt | rfl | hgt
  · have := offset_add_lt ls hlt hj
    omega
  · exact ⟨rfl, Nat.add_left_cancel h⟩
  · have := offset_add_lt ls hgt hj'
    omega

/-- The inner lists before one, that one, and those behind it. -/
theorem flatten_cut (ls : List (List α)) {k : Nat} (hk : k < ls.length) :
    ls.flatten = (ls.take k).flatten ++ (ls[k] ++ (ls.drop (k + 1)).flatten) := by
  rw [← List.flatten_cons, ← List.drop_eq_getElem_cons hk, ← List.flatten_append,
    List.take_append_drop]

theorem flatten_take_succ (ls : List (List α)) {k : Nat} (hk : k < ls.length) :
    (ls.take (k + 1)).flatten = (ls.take k).flatten ++ ls[k] := by
  rw [List.take_succ_eq_append_getElem hk, List.flatten_append, List.flatten_singleton]

theorem innerList_eq_getElem (ls : List (List α)) {k : Nat} (hk : k < ls.length) :
    innerList ls k = ls[k] := by
  rw [innerList, List.getD_eq_getElem?_getD, List.getElem?_eq_getElem hk, Option.getD_some]

theorem offset_add_lt_length (ls : List (List α)) {k j : Nat} (hk : k < ls.length)
    (hj : j < (innerList ls k).length) : offset ls k + j < ls.flatten.length := by
  rw [← offset_length]
  exact offset_add_lt ls hk hj

theorem flatten_getElem? (ls : List (List α)) {k j : Nat} (hj : j < (innerList ls k).length) :
    ls.flatten[offset ls k + j]? = (innerList ls k)[j]? := by
  induction ls generalizing k with
  | nil => simp [innerList] at hj
  | cons l ls ih =>
    cases k with
    | zero =>
      have hlt : j < l.length := hj
      rw [offset, Nat.zero_add, List.flatten_cons, List.getElem?_append_left hlt]
      rfl
    | succ k =>
      have hinner : innerList (l :: ls) (k + 1) = innerList ls k := List.getD_cons_succ
      rw [hinner] at hj ⊢
      rw [offset_cons, List.flatten_cons, List.getElem?_append_right (by omega), ← ih hj]
      congr 1
      omega

end EARanges.Support
