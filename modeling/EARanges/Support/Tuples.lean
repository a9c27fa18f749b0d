import Mathlib.Data.List.Basic
import Mathlib.Data.List.Forall2

/-!
# Tuples in lexicographic order

All tuples with one element of each list, the last place varying fastest. A list of
tuples is also read off from the back: the tuples over one more list are blocks, one
for each tuple over the lists before.
-/
namespace EARanges.Support

variable {α β : Type}

def tuples : List (List α) → List (List α)
  | [] => [[]]
  | l :: ls => l.flatMap fun x => (tuples ls).map (x :: ·)

theorem mem_tuples {ls : List (List α)} {t : List α} :
    t ∈ tuples ls ↔ List.Forall₂ (· ∈ ·) t ls := by
  induction ls generalizing t with
  | nil => rw [tuples, List.mem_singleton, List.forall₂_nil_right_iff]
  | cons l ls ih =>
    rw [tuples, List.mem_flatMap, List.forall₂_cons_right_iff]
    constructor
    · rintro ⟨x, hx, ht⟩
      obtain ⟨t', ht', rfl⟩ := List.mem_map.mp ht
      exact ⟨x, t', hx, ih.mp ht', rfl⟩
    · rintro ⟨x, t', hx, ht', rfl⟩
      exact ⟨x, hx, List.mem_map.mpr ⟨t', ih.mpr ht', rfl⟩⟩

/-- Lists in ascending order give tuples in ascending order, so none occurs twice. -/
theorem tuples_pairwise_lex {r : α → α → Prop} {ls : List (List α)}
    (h : ∀ l ∈ ls, l.Pairwise r) : (tuples ls).Pairwise (List.Lex r) := by
  induction ls with
  | nil => exact List.pairwise_singleton _ _
  | cons l ls ih =>
    rw [tuples, List.pairwise_flatMap]
    constructor
    · intro x _
      rw [List.pairwise_map]
      apply (ih fun l' hl' => h l' (List.mem_cons_of_mem l hl')).imp
      exact fun hlex => List.Lex.cons hlex
    · apply (h l List.mem_cons_self).imp
      intro x y hxy t ht t' ht'
      obtain ⟨s, _, rfl⟩ := List.mem_map.mp ht
      obtain ⟨s', _, rfl⟩ := List.mem_map.mp ht'
      exact List.Lex.rel hxy

theorem tuples_concat (ls : List (List α)) (l : List α) :
    tuples (ls ++ [l]) = (tuples ls).flatMap fun t => l.map fun x => t ++ [x] := by
  induction ls with
  | nil =>
    have hleft : tuples [l] = l.flatMap fun x => [[x]] := rfl
    have hright : (tuples []).flatMap (fun t => l.map fun x => t ++ [x]) = l.map fun x => [x] :=
      List.append_nil _
    rw [List.nil_append, hleft, hright, List.map_eq_flatMap]
  | cons l' ls ih =>
    rw [List.cons_append, tuples, ih, tuples, List.flatMap_assoc]
    congr 1
    funext x
    rw [List.flatMap_map, List.map_flatMap]
    simp only [List.map_map]
    rfl

/-! ## Blocks of equal length -/

theorem length_flatMap_map (ts : List β) (l : List α) (f : β → α → List α) :
    (ts.flatMap fun t => l.map (f t)).length = ts.length * l.length := by
  induction ts with
  | nil => exact (Nat.zero_mul _).symm
  | cons t ts ih =>
    rw [List.flatMap_cons, List.length_append, List.length_map, ih, List.length_cons,
      Nat.succ_mul, Nat.add_comm]

theorem getElem?_flatMap_map {l : List α} (ts : List β) (f : β → α → List α) {q i : Nat}
    (hi : i < l.length) :
    (ts.flatMap fun t => l.map (f t))[q * l.length + i]? =
      ts[q]?.bind fun t => l[i]?.map (f t) := by
  induction ts generalizing q with
  | nil => rfl
  | cons t ts ih =>
    rw [List.flatMap_cons]
    cases q with
    | zero =>
      have hlt : 0 * l.length + i < (l.map (f t)).length := by
        rw [Nat.zero_mul, Nat.zero_add, List.length_map]
        exact hi
      rw [List.getElem?_append_left hlt, Nat.zero_mul, Nat.zero_add, List.getElem?_map]
      rfl
    | succ q =>
      have hindex : (q + 1) * l.length + i = (l.map (f t)).length + (q * l.length + i) := by
        rw [List.length_map, Nat.succ_mul]
        omega
      rw [hindex, List.getElem?_append_right (Nat.le_add_right _ _), Nat.add_sub_cancel_left, ih]
      rfl

end EARanges.Support
