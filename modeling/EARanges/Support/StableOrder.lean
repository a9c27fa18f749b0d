import Mathlib.Data.List.Perm.Basic
import Mathlib.Order.Defs.Unbundled
import Mathlib.Order.Lattice
import Mathlib.Order.RelClasses

/-!
# Stable sorting under a strict weak order

Elements neither of which is less than the other form a class. A stable rearrangement
permutes a list without changing the order within any class (`StablePerm`), and a list
has at most one sorted stable rearrangement (`IsStableSort.unique`). Hence algorithms
that take different ways agree as soon as each is shown to sort stably.
-/
namespace EARanges.Support

variable {γ κ : Type}

/-- A Boolean comparison that is a strict weak order. -/
abbrev StrictWeakOrder (lt : γ → γ → Bool) : Prop :=
  IsStrictWeakOrder γ fun a b => lt a b = true

/-- The order of elements by their projections. -/
def projected (pred : κ → κ → Bool) (proj : γ → κ) (a b : γ) : Bool := pred (proj a) (proj b)

theorem StrictWeakOrder.projected {pred : κ → κ → Bool} (h : StrictWeakOrder pred)
    (proj : γ → κ) : StrictWeakOrder (projected pred proj) where
  irrefl a := h.irrefl (proj a)
  trans a b c := h.trans (proj a) (proj b) (proj c)
  incomp_trans a b c := h.incomp_trans (proj a) (proj b) (proj c)

theorem StrictWeakOrder.of_linearOrder (γ : Type) [LinearOrder γ] :
    StrictWeakOrder fun a b : γ => decide (a < b) := by
  have h : IsStrictWeakOrder γ (· < ·) := isStrictWeakOrder_of_isOrderConnected
  simpa only [StrictWeakOrder, decide_eq_true_eq] using h

section
variable {lt : γ → γ → Bool} (h : StrictWeakOrder lt)
include h

theorem StrictWeakOrder.not_self (a : γ) : lt a a = false := by
  simpa using h.irrefl a

theorem StrictWeakOrder.asymm {a b : γ} (hab : lt a b = true) : lt b a = false := by
  by_contra hba
  exact h.irrefl a (h.trans a b a hab (by simpa using hba))

/-- "Not greater" is transitive. -/
theorem StrictWeakOrder.not_lt_trans {a b c : γ} (hab : lt b a = false) (hbc : lt c b = false) :
    lt c a = false := by
  by_contra hca
  have hca : lt c a = true := by simpa using hca
  have hab' : ¬ lt a b = true := fun hlt => by
    have := h.trans c a b hca hlt
    simp [hbc] at this
  have hbc' : ¬ lt b c = true := fun hlt => by
    have := h.trans b c a hlt hca
    simp [hab] at this
  have hincomp := h.incomp_trans a b c ⟨hab', by simp [hab]⟩ ⟨hbc', by simp [hbc]⟩
  exact hincomp.2 hca

theorem StrictWeakOrder.lt_of_lt_of_not_lt {a b c : γ} (hab : lt a b = true)
    (hbc : lt c b = false) : lt a c = true := by
  by_contra hac
  have hba := h.not_lt_trans (b := c) hbc (by simpa using hac)
  simp [hab] at hba

theorem StrictWeakOrder.lt_of_not_lt_of_lt {a b c : γ} (hab : lt b a = false)
    (hbc : lt b c = true) : lt a c = true := by
  by_contra hac
  have hbc' := h.not_lt_trans (a := c) (c := b) (by simpa using hac) hab
  simp [hbc] at hbc'

end

/-- Neither is less. -/
def Equivalent (lt : γ → γ → Bool) (a b : γ) : Prop := lt a b = false ∧ lt b a = false

/-- Sorted: no element is less than an earlier one. -/
abbrev Sorted (lt : γ → γ → Bool) (l : List γ) : Prop := l.Pairwise fun a b => lt b a = false

/-- No element of `m` is less than one of `l`. -/
def NotAbove (lt : γ → γ → Bool) (l m : List γ) : Prop := ∀ a ∈ l, ∀ b ∈ m, lt b a = false

theorem sorted_append {lt : γ → γ → Bool} {l m : List γ} (hl : Sorted lt l) (hm : Sorted lt m)
    (h : NotAbove lt l m) : Sorted lt (l ++ m) :=
  List.pairwise_append.mpr ⟨hl, hm, h⟩

theorem exists_least {lt : γ → γ → Bool} (h : StrictWeakOrder lt) {l : List γ} (hl : l ≠ []) :
    ∃ y ∈ l, ∀ z ∈ l, lt z y = false := by
  induction l with
  | nil => exact absurd rfl hl
  | cons x l ih =>
    by_cases hnil : l = []
    · subst hnil
      refine ⟨x, by simp, fun z hz => ?_⟩
      rw [List.mem_singleton.mp hz]
      exact h.not_self x
    · obtain ⟨y, hy, hleast⟩ := ih hnil
      cases hxy : lt x y with
      | true =>
        refine ⟨x, by simp, fun z hz => ?_⟩
        obtain rfl | hz := List.mem_cons.mp hz
        · exact h.not_self z
        · exact h.not_lt_trans (h.asymm hxy) (hleast z hz)
      | false =>
        refine ⟨y, List.mem_cons_of_mem x hy, fun z hz => ?_⟩
        obtain rfl | hz := List.mem_cons.mp hz
        · exact hxy
        · exact hleast z hz

/-- The class of `c`. -/
def sameClass (lt : γ → γ → Bool) (c a : γ) : Bool := !lt c a && !lt a c

/-- Two members of one class are not comparable. -/
theorem not_lt_of_sameClass {lt : γ → γ → Bool} (h : StrictWeakOrder lt) {a b c : γ}
    (ha : sameClass lt c a = true) (hb : sameClass lt c b = true) : lt a b = false := by
  simp only [sameClass, Bool.and_eq_true, Bool.not_eq_true'] at ha hb
  exact h.not_lt_trans hb.1 ha.2

/-- A permutation that keeps the order within each class. -/
structure StablePerm (lt : γ → γ → Bool) (l m : List γ) : Prop where
  perm : l.Perm m
  classes : ∀ c, l.filter (sameClass lt c) = m.filter (sameClass lt c)

namespace StablePerm

variable {lt : γ → γ → Bool}

theorem refl (l : List γ) : StablePerm lt l l := ⟨.refl l, fun _ => rfl⟩

theorem symm {l m : List γ} (h : StablePerm lt l m) : StablePerm lt m l :=
  ⟨h.perm.symm, fun c => (h.classes c).symm⟩

theorem trans {l m k : List γ} (h : StablePerm lt l m) (h' : StablePerm lt m k) :
    StablePerm lt l k :=
  ⟨h.perm.trans h'.perm, fun c => (h.classes c).trans (h'.classes c)⟩

theorem append {l l' m m' : List γ} (h : StablePerm lt l l') (h' : StablePerm lt m m') :
    StablePerm lt (l ++ m) (l' ++ m') :=
  ⟨h.perm.append h'.perm, fun c => by rw [List.filter_append, List.filter_append, h.classes c,
    h'.classes c]⟩

theorem length_eq {l m : List γ} (h : StablePerm lt l m) : l.length = m.length := h.perm.length_eq

/-- Blocks without a common class may change places. -/
theorem swap (hlt : StrictWeakOrder lt) {l m : List γ} (h : ∀ a ∈ l, ∀ b ∈ m, lt b a = true) :
    StablePerm lt (l ++ m) (m ++ l) := by
  refine ⟨List.perm_append_comm, fun c => ?_⟩
  rw [List.filter_append, List.filter_append]
  cases hl : l.filter (sameClass lt c) with
  | nil => rw [List.nil_append, List.append_nil]
  | cons a l' =>
    cases hm : m.filter (sameClass lt c) with
    | nil => rw [List.nil_append, List.append_nil]
    | cons b m' =>
      -- members of one class in both blocks would be comparable
      have ha : a ∈ l.filter (sameClass lt c) := hl ▸ List.mem_cons_self ..
      have hb : b ∈ m.filter (sameClass lt c) := hm ▸ List.mem_cons_self ..
      have hba := h a (List.mem_filter.mp ha).1 b (List.mem_filter.mp hb).1
      have hnot := not_lt_of_sameClass hlt (List.mem_filter.mp hb).2 (List.mem_filter.mp ha).2
      rw [hba] at hnot
      cases hnot

theorem cons_inv {a : γ} {l m : List γ}
    (h : StablePerm lt (a :: l) (a :: m)) : StablePerm lt l m := by
  refine ⟨(List.perm_cons a).mp h.perm, fun c => ?_⟩
  have hc := h.classes c
  rw [List.filter_cons, List.filter_cons] at hc
  split at hc
  · exact List.cons.inj hc |>.2
  · exact hc

end StablePerm

/-- `r` is the stable sort of `l`. -/
structure IsStableSort (lt : γ → γ → Bool) (l r : List γ) : Prop where
  sorted : Sorted lt r
  stable : StablePerm lt l r

/-- A sorted stable rearrangement is determined: its head is the first member of the
least class. -/
theorem eq_of_sorted_of_stablePerm {lt : γ → γ → Bool} (h : StrictWeakOrder lt) {l m : List γ}
    (hl : Sorted lt l) (hm : Sorted lt m) (hlm : StablePerm lt l m) : l = m := by
  induction l generalizing m with
  | nil => exact (List.nil_perm.mp hlm.perm).symm
  | cons a l ih =>
    cases m with
    | nil => exact absurd hlm.perm.length_eq (by simp)
    | cons b m =>
      obtain ⟨ha, hl'⟩ := List.pairwise_cons.mp hl
      obtain ⟨hb, hm'⟩ := List.pairwise_cons.mp hm
      have hba : lt b a = false := by
        have hmem := hlm.perm.mem_iff.mpr (List.mem_cons_self (a := b) (l := m))
        cases List.mem_cons.mp hmem with
        | inl heq => rw [heq]; exact h.not_self a
        | inr hmem => exact ha b hmem
      have hab : lt a b = false := by
        have hmem := hlm.perm.mem_iff.mp (List.mem_cons_self (a := a) (l := l))
        cases List.mem_cons.mp hmem with
        | inl heq => rw [heq]; exact h.not_self b
        | inr hmem => exact hb a hmem
      have hclass := hlm.classes a
      have haa : sameClass lt a a = true := by simp [sameClass, h.not_self a]
      have hab' : sameClass lt a b = true := by simp [sameClass, hab, hba]
      rw [List.filter_cons, List.filter_cons, if_pos haa, if_pos hab'] at hclass
      obtain rfl := (List.cons.inj hclass).1
      rw [ih hl' hm' hlm.cons_inv]

namespace IsStableSort

variable {lt : γ → γ → Bool}

theorem unique (h : StrictWeakOrder lt) {l r r' : List γ} (hr : IsStableSort lt l r)
    (hr' : IsStableSort lt l r') : r = r' :=
  eq_of_sorted_of_stablePerm h hr.sorted hr'.sorted (hr.stable.symm.trans hr'.stable)

theorem of_stablePerm {l l' r : List γ} (h : StablePerm lt l l') (hr : IsStableSort lt l' r) :
    IsStableSort lt l r := ⟨hr.sorted, h.trans hr.stable⟩

theorem self {l : List γ} (h : Sorted lt l) : IsStableSort lt l l := ⟨h, .refl l⟩

theorem length_eq {l r : List γ} (h : IsStableSort lt l r) : r.length = l.length :=
  h.stable.length_eq.symm

theorem mem_iff {l r : List γ} (h : IsStableSort lt l r) {a : γ} : a ∈ r ↔ a ∈ l :=
  h.stable.perm.mem_iff.symm

/-- Two parts sorted on their own, when no element of the second is less than one of
the first. -/
theorem append {l l' r r' : List γ} (h : IsStableSort lt l r) (h' : IsStableSort lt l' r')
    (hle : NotAbove lt l l') : IsStableSort lt (l ++ l') (r ++ r') := by
  refine ⟨sorted_append h.sorted h'.sorted fun a ha b hb => ?_, h.stable.append h'.stable⟩
  exact hle a (h.mem_iff.mp ha) b (h'.mem_iff.mp hb)

end IsStableSort

/-! ## Merging -/

/-- Takes from the second list only what is less than the head of the first. -/
def stableMerge (lt : γ → γ → Bool) (l m : List γ) : List γ := l.merge m fun a b => !lt b a

theorem stableMerge_classes {lt : γ → γ → Bool} (h : StrictWeakOrder lt) {l m : List γ}
    (hl : Sorted lt l) (c : γ) :
    (stableMerge lt l m).filter (sameClass lt c) =
      l.filter (sameClass lt c) ++ m.filter (sameClass lt c) := by
  unfold stableMerge
  induction l generalizing m with
  | nil => simp
  | cons a l ihl =>
    obtain ⟨ha, hl'⟩ := List.pairwise_cons.mp hl
    induction m with
    | nil => simp
    | cons b m ihm =>
      rw [List.cons_merge_cons]
      cases hba : lt b a with
      | false =>
        rw [if_pos (by rfl), List.filter_cons, ihl hl']
        by_cases hc : sameClass lt c a = true
        · rw [if_pos hc, List.filter_cons (x := a), if_pos hc, List.cons_append]
        · rw [if_neg hc, List.filter_cons (x := a), if_neg hc]
      | true =>
        rw [if_neg (by simp), List.filter_cons, ihm]
        by_cases hc : sameClass lt c b = true
        · -- `b` is less than all that is left of the first list
          have hnone : (a :: l).filter (sameClass lt c) = [] := by
            apply List.filter_eq_nil_iff.mpr
            intro x hx hxc
            have hax : lt x a = false := by
              cases List.mem_cons.mp hx with
              | inl heq => rw [heq]; exact h.not_self a
              | inr hx => exact ha x hx
            have hbx := h.lt_of_lt_of_not_lt hba hax
            rw [not_lt_of_sameClass h hc hxc] at hbx
            cases hbx
          rw [if_pos hc, hnone, List.nil_append, List.nil_append, List.filter_cons, if_pos hc]
        · rw [if_neg hc, List.filter_cons (x := b), if_neg hc]

/-- Merging sorted lists sorts their concatenation stably. -/
theorem isStableSort_merge {lt : γ → γ → Bool} (h : StrictWeakOrder lt) {l m : List γ}
    (hl : Sorted lt l) (hm : Sorted lt m) : IsStableSort lt (l ++ m) (stableMerge lt l m) := by
  have htrans : ∀ a b c : γ, (!lt b a) = true → (!lt c b) = true → (!lt c a) = true := by
    intro a b c hab hbc
    simp only [Bool.not_eq_true'] at hab hbc ⊢
    exact h.not_lt_trans hab hbc
  have htotal : ∀ a b : γ, ((!lt b a) || (!lt a b)) = true := by
    intro a b
    cases hab : lt a b with
    | false => simp
    | true => simp [h.asymm hab]
  have hsorted : (stableMerge lt l m).Pairwise fun a b => (!lt b a) = true :=
    List.pairwise_merge htrans htotal l m (hl.imp fun hab => by simpa using hab)
      (hm.imp fun hab => by simpa using hab)
  have hperm : (stableMerge lt l m).Perm (l ++ m) := List.merge_perm_append _
  refine ⟨hsorted.imp fun hab => by simpa using hab, hperm.symm, fun c => ?_⟩
  rw [stableMerge_classes h hl, List.filter_append]

/-! ## Runs -/

/-- Cut into pieces of `k`, every piece is sorted. -/
def SortedRuns (lt : γ → γ → Bool) (k : Nat) (l : List γ) : Prop :=
  ∀ i, Sorted lt ((l.drop (i * k)).take k)

theorem sortedRuns_append {lt : γ → γ → Bool} {k : Nat} {a l : List γ} (ha : a.length = k) :
    SortedRuns lt k (a ++ l) ↔ Sorted lt a ∧ SortedRuns lt k l := by
  have hfirst : ((a ++ l).drop (0 * k)).take k = a := by
    rw [Nat.zero_mul, List.drop_zero, List.take_left' ha]
  have hrest (i : Nat) : (a ++ l).drop ((i + 1) * k) = l.drop (i * k) := by
    rw [List.drop_append, List.drop_eq_nil_of_le (by rw [ha, Nat.succ_mul]; omega), List.nil_append,
      ha, Nat.succ_mul, Nat.add_sub_cancel]
  constructor
  · intro h
    have h0 := h 0
    rw [hfirst] at h0
    refine ⟨h0, fun i => ?_⟩
    have hi := h (i + 1)
    rwa [hrest] at hi
  · rintro ⟨hsorted, hruns⟩ i
    cases i with
    | zero => rwa [hfirst]
    | succ i =>
      rw [hrest]
      exact hruns i

theorem SortedRuns.of_sorted {lt : γ → γ → Bool} {l : List γ} (h : Sorted lt l) (k : Nat) :
    SortedRuns lt k l := fun i =>
  h.sublist ((List.take_sublist k _).trans (List.drop_sublist (i * k) l))

/-- A single run. -/
theorem SortedRuns.sorted {lt : γ → γ → Bool} {k : Nat} {l : List γ} (h : SortedRuns lt k l)
    (hle : l.length ≤ k) : Sorted lt l := by
  have h0 := h 0
  rwa [Nat.zero_mul, List.drop_zero, List.take_of_length_le hle] at h0

end EARanges.Support
