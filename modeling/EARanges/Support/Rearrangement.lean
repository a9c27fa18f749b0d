import Mathlib.Data.List.Perm.Basic
import Mathlib.Data.List.Forall2

/-!
# Rearrangement up to an equivalence

`Rearranges r l m` says that `m` is a rearrangement of `l` when `r`-related
elements are not told apart. For an equivalence this is equality of the number of
elements in every class (`rearranges_iff_count`), and with equal lengths the
classes met in `l` suffice (`rearranges_of_count`).
-/
namespace EARanges.Support

variable {γ : Type}

/-- `m` is, up to `r`, a rearrangement of `l`. -/
def Rearranges (r : γ → γ → Bool) (l m : List γ) : Prop :=
  ∃ l', l'.Perm m ∧ List.Forall₂ (fun a b => r a b = true) l l'

/-- A Boolean test that is an equivalence relation. -/
def IsEquivalence (r : γ → γ → Bool) : Prop := Equivalence (fun a b => r a b = true)

/-- Related elements answer every class test alike. -/
theorem IsEquivalence.congr_right {r : γ → γ → Bool} (hr : IsEquivalence r) {a b : γ}
    (h : r a b = true) (c : γ) : r c a = r c b := by
  rw [Bool.eq_iff_iff]
  exact ⟨fun hc => hr.trans hc h, fun hc => hr.trans hc (hr.symm h)⟩

theorem IsEquivalence.congr_left {r : γ → γ → Bool} (hr : IsEquivalence r) {a b : γ}
    (h : r a b = true) (c : γ) : r a c = r b c := by
  rw [Bool.eq_iff_iff]
  exact ⟨fun hc => hr.trans (hr.symm h) hc, fun hc => hr.trans h hc⟩

theorem countP_of_forall₂ {r : γ → γ → Bool} (hr : IsEquivalence r) (c : γ) {l m : List γ}
    (h : List.Forall₂ (fun a b => r a b = true) l m) : l.countP (r c) = m.countP (r c) := by
  induction h with
  | nil => rfl
  | cons hab _ ih => simp only [List.countP_cons, ih, hr.congr_right hab c]

theorem Rearranges.countP_eq {r : γ → γ → Bool} (hr : IsEquivalence r) {l m : List γ}
    (h : Rearranges r l m) (c : γ) : l.countP (r c) = m.countP (r c) := by
  obtain ⟨l', hperm, hrel⟩ := h
  rw [countP_of_forall₂ hr c hrel, hperm.countP_eq]

theorem Rearranges.length_eq {r : γ → γ → Bool} {l m : List γ} (h : Rearranges r l m) :
    l.length = m.length := by
  obtain ⟨l', hperm, hrel⟩ := h
  rw [hrel.length_eq, hperm.length_eq]

/-- An element of `m` related to `a` can be moved to the front, and doing so leaves
every class count of the remainder short by that element only. -/
theorem exists_perm_cons_of_countP_pos {r : γ → γ → Bool} {a : γ} {m : List γ}
    (h : 0 < m.countP (r a)) : ∃ b m', (b :: m').Perm m ∧ r a b = true := by
  obtain ⟨b, hb, hab⟩ := List.countP_pos_iff.mp h
  obtain ⟨m₁, m₂, rfl⟩ := List.append_of_mem hb
  exact ⟨b, m₁ ++ m₂, List.perm_middle.symm, hab⟩

theorem Rearranges.cons_of_perm {r : γ → γ → Bool} {a b : γ} {l m m' : List γ}
    (h : Rearranges r l m') (hab : r a b = true) (hperm : (b :: m').Perm m) :
    Rearranges r (a :: l) m := by
  obtain ⟨l', hl', hrel⟩ := h
  exact ⟨b :: l', (hl'.cons b).trans hperm, List.Forall₂.cons hab hrel⟩

/-- Pairing off one element of `l` with a related element of `m` at a time. -/
theorem rearranges_of_count {r : γ → γ → Bool} (hr : IsEquivalence r) {l m : List γ}
    (hlen : l.length = m.length)
    (hcount : ∀ a ∈ l, l.countP (r a) = m.countP (r a)) : Rearranges r l m := by
  induction l generalizing m with
  | nil =>
    have hm : m = [] := List.eq_nil_of_length_eq_zero (by simpa using hlen.symm)
    subst hm
    exact ⟨[], List.Perm.refl _, List.Forall₂.nil⟩
  | cons a l ih =>
    have hpos : 0 < m.countP (r a) := by
      rw [← hcount a (by simp), List.countP_cons, if_pos (hr.refl a)]
      omega
    obtain ⟨b, m', hperm, hab⟩ := exists_perm_cons_of_countP_pos hpos
    have hrest : Rearranges r l m' := by
      apply ih
      · have := hperm.length_eq
        simp only [List.length_cons] at hlen this
        omega
      · intro c hc
        have h := hcount c (by simp [hc])
        rw [← hperm.countP_eq, List.countP_cons, List.countP_cons, hr.congr_right hab c] at h
        omega
    exact hrest.cons_of_perm hab hperm

/-- Equal counts in every class already force equal lengths. -/
theorem rearranges_iff_count {r : γ → γ → Bool} (hr : IsEquivalence r) (l m : List γ) :
    Rearranges r l m ↔ ∀ c, l.countP (r c) = m.countP (r c) := by
  constructor
  · exact fun h c => h.countP_eq hr c
  · intro h
    induction l generalizing m with
    | nil =>
      cases m with
      | nil => exact ⟨[], List.Perm.refl _, List.Forall₂.nil⟩
      | cons b m =>
        have hb := h b
        rw [List.countP_nil, List.countP_cons, if_pos (hr.refl b)] at hb
        omega
    | cons a l ih =>
      have hpos : 0 < m.countP (r a) := by
        rw [← h a, List.countP_cons, if_pos (hr.refl a)]
        omega
      obtain ⟨b, m', hperm, hab⟩ := exists_perm_cons_of_countP_pos hpos
      refine (ih m' fun c => ?_).cons_of_perm hab hperm
      have hc := h c
      rw [← hperm.countP_eq, List.countP_cons, List.countP_cons, hr.congr_right hab c] at hc
      omega

/-- Cancelling a related pair at the front, which is what skipping a common
prefix does. -/
theorem rearranges_cons_iff {r : γ → γ → Bool} (hr : IsEquivalence r) {a b : γ}
    (hab : r a b = true) (l m : List γ) : Rearranges r (a :: l) (b :: m) ↔ Rearranges r l m := by
  simp only [rearranges_iff_count hr, List.countP_cons]
  apply forall_congr'
  intro c
  rw [hr.congr_right hab c]
  omega

end EARanges.Support
