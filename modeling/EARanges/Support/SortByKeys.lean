import EARanges.Support.Lexicographic

/-!
# Sorting by several keys

The order by a list of keys, the first of them deciding. It is what stable sorts by one key after
the other leave, if they begin with the last key.
-/
namespace EARanges.Support

variable {γ : Type} {lt lt' : γ → γ → Bool}

/-- The first order, and among equivalent elements the second. -/
def refinedBy (lt lt' : γ → γ → Bool) (a b : γ) : Bool := lt a b || !lt b a && lt' a b

def byKeys : List (γ → γ → Bool) → γ → γ → Bool
  | [] => fun _ _ => false
  | lt :: keys => refinedBy lt (byKeys keys)

theorem equivalent_refinedBy_iff {a b : γ} :
    Equivalent (refinedBy lt lt') a b ↔ Equivalent lt a b ∧ Equivalent lt' a b := by
  unfold Equivalent refinedBy
  cases lt a b <;> cases lt b a <;> simp

theorem sameClass_refinedBy (c a : γ) :
    sameClass (refinedBy lt lt') c a = (sameClass lt c a && sameClass lt' c a) := by
  rw [Bool.eq_iff_iff, Bool.and_eq_true, sameClass_iff, sameClass_iff, sameClass_iff,
    equivalent_refinedBy_iff]

theorem refinedBy_trans (h : StrictWeakOrder lt) (h' : StrictWeakOrder lt') {a b c : γ}
    (hab : refinedBy lt lt' a b = true) (hbc : refinedBy lt lt' b c = true) :
    refinedBy lt lt' a c = true := by
  simp only [refinedBy, Bool.or_eq_true, Bool.and_eq_true, Bool.not_eq_true'] at hab hbc ⊢
  obtain hab | ⟨hba, hab'⟩ := hab
  · obtain hbc | ⟨hcb, _⟩ := hbc
    · exact .inl (h.trans a b c hab hbc)
    · exact .inl (h.lt_of_lt_of_not_lt hab hcb)
  · obtain hbc | ⟨hcb, hbc'⟩ := hbc
    · exact .inl (h.lt_of_not_lt_of_lt hba hbc)
    · exact .inr ⟨h.not_lt_trans hba hcb, h'.trans a b c hab' hbc'⟩

theorem StrictWeakOrder.refinedBy (h : StrictWeakOrder lt) (h' : StrictWeakOrder lt') :
    StrictWeakOrder (refinedBy lt lt') where
  irrefl a := by simp [Support.refinedBy, h.not_self a, h'.not_self a]
  trans a b c := refinedBy_trans h h'
  incomp_trans a b c hab hbc := by
    simp only [Bool.not_eq_true] at hab hbc ⊢
    obtain ⟨hab, hab'⟩ := equivalent_refinedBy_iff.mp hab
    obtain ⟨hbc, hbc'⟩ := equivalent_refinedBy_iff.mp hbc
    exact equivalent_refinedBy_iff.mpr ⟨hab.trans h hbc, hab'.trans h' hbc'⟩

theorem StrictWeakOrder.byKeys {keys : List (γ → γ → Bool)}
    (hkeys : ∀ lt ∈ keys, StrictWeakOrder lt) : StrictWeakOrder (byKeys keys) := by
  induction keys with
  | nil =>
    exact { irrefl := fun _ h => Bool.false_ne_true h
            trans := fun _ _ _ h => absurd h Bool.false_ne_true
            incomp_trans := fun _ _ _ h _ => h }
  | cons lt keys ih =>
    obtain ⟨h, hkeys⟩ := List.forall_mem_cons.mp hkeys
    exact h.refinedBy (ih hkeys)

/-- A list sorted by the first order whose classes are sorted by the second. -/
theorem sorted_refinedBy (h : StrictWeakOrder lt) {l : List γ} (hl : Sorted lt l)
    (hclasses : ∀ c, Sorted lt' (l.filter (sameClass lt c))) : Sorted (refinedBy lt lt') l := by
  induction l with
  | nil => exact .nil
  | cons x l ih =>
    obtain ⟨hx, hrest⟩ := List.pairwise_cons.mp hl
    -- a later element is not less than `x`, and if it is equivalent, both are in one class
    refine List.pairwise_cons.mpr ⟨fun y hy => ?_, ih hrest fun c => ?_⟩
    · have hyx := hx y hy
      cases hxy : lt x y with
      | true => simp [refinedBy, hyx, hxy]
      | false =>
        have hself : sameClass lt y x = true := sameClass_iff.mpr ⟨hyx, hxy⟩
        have hclass := hclasses y
        rw [List.filter_cons_of_pos hself] at hclass
        have hmem : y ∈ l.filter (sameClass lt y) :=
          List.mem_filter.mpr ⟨hy, sameClass_iff.mpr ⟨h.not_self y, h.not_self y⟩⟩
        simp [refinedBy, hyx, hxy, (List.pairwise_cons.mp hclass).1 y hmem]
    · exact (hclasses c).sublist (List.Sublist.filter _ (List.sublist_cons_self x l))

/-- A stable sort by one more key. -/
theorem IsStableSort.refine (horder : StrictWeakOrder lt) {l m r : List γ}
    (h : IsStableSort lt' l m) (h' : IsStableSort lt m r) :
    IsStableSort (refinedBy lt lt') l r where
  sorted := sorted_refinedBy horder h'.sorted fun c => by
    rw [← h'.stable.classes c]
    exact List.Pairwise.filter _ h.sorted
  stable := by
    refine ⟨h.stable.perm.trans h'.stable.perm, fun c => ?_⟩
    have hclasses : ∀ k : List γ, k.filter (sameClass (refinedBy lt lt') c) =
        (k.filter (sameClass lt c)).filter (sameClass lt' c) := by
      intro k
      rw [List.filter_filter]
      exact List.filter_congr fun a _ => (sameClass_refinedBy c a).trans (Bool.and_comm _ _)
    calc
      l.filter (sameClass (refinedBy lt lt') c)
          = (l.filter (sameClass lt' c)).filter (sameClass lt c) := by
            rw [hclasses, List.filter_comm]
      _ = (m.filter (sameClass lt c)).filter (sameClass lt' c) := by
            rw [h.stable.classes c, List.filter_comm]
      _ = r.filter (sameClass (refinedBy lt lt') c) := by
            rw [h'.stable.classes c, hclasses]

end EARanges.Support
