import Mathlib.Data.List.Forall2

/-!
# Two lists side by side

How far two lists agree under a relation, and what that says of prefixes, suffixes and equality.
-/
namespace EARanges.Support

variable {α β : Type}

/-- The number of leading pairs that are related. -/
def matchLength (rel : α → β → Bool) : List α → List β → Nat
  | x :: xs, y :: ys => if rel x y then matchLength rel xs ys + 1 else 0
  | _, _ => 0

variable {rel : α → β → Bool} {xs : List α} {ys : List β}

theorem matchLength_nil_right : matchLength rel xs [] = 0 := by
  cases xs <;> rfl

/-- The second list is matched to its end if it is related to a beginning of the first. -/
theorem matchLength_eq_right_iff :
    matchLength rel xs ys = ys.length ↔
      ∃ zs, zs <+: xs ∧ List.Forall₂ (fun x y => rel x y = true) zs ys := by
  induction xs generalizing ys with
  | nil =>
    cases ys with
    | nil => exact iff_of_true rfl ⟨[], List.prefix_refl _, .nil⟩
    | cons y ys =>
      refine iff_of_false (Nat.succ_ne_zero _).symm ?_
      rintro ⟨zs, hprefix, hrel⟩
      rw [List.prefix_nil.mp hprefix] at hrel
      cases hrel
  | cons x xs ih =>
    cases ys with
    | nil => exact iff_of_true rfl ⟨[], List.nil_prefix, .nil⟩
    | cons y ys =>
      rw [matchLength, List.length_cons]
      constructor
      · intro hmatch
        split at hmatch
        next hxy =>
          obtain ⟨zs, hprefix, hrel⟩ := ih.mp (Nat.succ.inj hmatch)
          exact ⟨x :: zs, List.cons_prefix_cons.mpr ⟨rfl, hprefix⟩, .cons hxy hrel⟩
        next => cases hmatch
      · rintro ⟨zs, hprefix, hrel⟩
        cases hrel with
        | cons hxy hrel =>
          obtain ⟨rfl, htail⟩ := List.cons_prefix_cons.mp hprefix
          rw [if_pos hxy, ih.mpr ⟨_, htail, hrel⟩]

/-- The last elements of the first list are its only suffix of that length. -/
theorem forall₂_drop_iff_suffix {R : α → β → Prop} :
    List.Forall₂ R (xs.drop (xs.length - ys.length)) ys ↔
      ∃ zs, zs <:+ xs ∧ List.Forall₂ R zs ys := by
  constructor
  · intro hall
    exact ⟨_, List.drop_suffix _ xs, hall⟩
  · rintro ⟨zs, hsuffix, hall⟩
    rwa [← hall.length_eq, ← List.suffix_iff_eq_drop.mp hsuffix]

/-- To end with a list is to start with it when both are read backwards. -/
theorem exists_suffix_iff_reverse {R : α → β → Prop} :
    (∃ zs, zs <:+ xs ∧ List.Forall₂ R zs ys) ↔
      ∃ zs, zs <+: xs.reverse ∧ List.Forall₂ R zs ys.reverse := by
  constructor
  · rintro ⟨zs, hsuffix, hall⟩
    exact ⟨zs.reverse, List.reverse_prefix.mpr hsuffix, List.rel_reverse hall⟩
  · rintro ⟨zs, hprefix, hall⟩
    rw [← List.reverse_reverse zs] at hprefix hall
    exact ⟨zs.reverse, List.reverse_prefix.mp hprefix, List.forall₂_reverse_iff.mp hall⟩

/-! ## From two positions on -/

theorem matchLength_drop {i j : Nat} {x : α} {y : β} (hx : xs[i]? = some x)
    (hy : ys[j]? = some y) :
    matchLength rel (xs.drop i) (ys.drop j) =
      if rel x y then matchLength rel (xs.drop (i + 1)) (ys.drop (j + 1)) + 1 else 0 := by
  obtain ⟨hi, rfl⟩ := List.getElem?_eq_some_iff.mp hx
  obtain ⟨hj, rfl⟩ := List.getElem?_eq_some_iff.mp hy
  rw [List.drop_eq_getElem_cons hi, List.drop_eq_getElem_cons hj, matchLength]

theorem matchLength_drop_end {i j : Nat} (hend : i = xs.length ∨ j = ys.length) :
    matchLength rel (xs.drop i) (ys.drop j) = 0 := by
  rcases hend with rfl | rfl
  · rw [List.drop_length]
    rfl
  · rw [List.drop_length]
    exact matchLength_nil_right

end EARanges.Support
