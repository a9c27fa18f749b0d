import EARanges.Support.Rearrangement
import EARanges.Support.StableOrder

/-!
# The lexicographic order of rearrangements

Lists compared by their first elements that are not equivalent. This is a strict weak order
again, whose classes are the lists that are equivalent element by element. Among the
rearrangements of a list the sorted one is first and the one in descending order last, and
exchanging an element with the least greater one behind it, where a descending part begins,
leads to the next (`NextRearrangement.of_pivot`).
-/
namespace EARanges.Support

variable {γ : Type} {lt : γ → γ → Bool}

/-! ## Equivalence -/

theorem sameClass_iff {a b : γ} : sameClass lt a b = true ↔ Equivalent lt a b := by
  simp [sameClass, Equivalent]

theorem Equivalent.symm {a b : γ} (h : Equivalent lt a b) : Equivalent lt b a := ⟨h.2, h.1⟩

theorem Equivalent.trans (h : StrictWeakOrder lt) {a b c : γ} (hab : Equivalent lt a b)
    (hbc : Equivalent lt b c) : Equivalent lt a c :=
  ⟨h.not_lt_trans hbc.1 hab.1, h.not_lt_trans hab.2 hbc.2⟩

theorem isEquivalence_sameClass (h : StrictWeakOrder lt) : IsEquivalence (sameClass lt) where
  refl a := sameClass_iff.mpr ⟨h.not_self a, h.not_self a⟩
  symm hab := sameClass_iff.mpr (sameClass_iff.mp hab).symm
  trans hab hbc := sameClass_iff.mpr ((sameClass_iff.mp hab).trans h (sameClass_iff.mp hbc))

/-- The order the other way round. -/
def reversed (lt : γ → γ → Bool) (a b : γ) : Bool := lt b a

theorem StrictWeakOrder.reversed (h : StrictWeakOrder lt) : StrictWeakOrder (reversed lt) where
  irrefl a := h.irrefl a
  trans a b c hab hbc := h.trans c b a hbc hab
  incomp_trans a b c hab hbc := by
    have hca := h.incomp_trans a b c hab.symm hbc.symm
    exact hca.symm

theorem sameClass_reversed : sameClass (reversed lt) = sameClass lt := by
  funext c a
  exact Bool.and_comm _ _

theorem equivalent_reversed {a b : γ} :
    Equivalent (reversed lt) a b ↔ Equivalent lt a b := and_comm

theorem equivalent_lists_trans (h : StrictWeakOrder lt) {l m k : List γ}
    (hlm : List.Forall₂ (Equivalent lt) l m) (hmk : List.Forall₂ (Equivalent lt) m k) :
    List.Forall₂ (Equivalent lt) l k := by
  induction hlm generalizing k with
  | nil =>
    cases hmk
    exact .nil
  | cons hab _ ih =>
    cases hmk with
    | cons hbc hmk => exact .cons (hab.trans h hbc) (ih hmk)

theorem equivalent_lists_reversed {l m : List γ} :
    List.Forall₂ (Equivalent (reversed lt)) l m ↔ List.Forall₂ (Equivalent lt) l m := by
  constructor
  · exact List.Forall₂.imp fun _ _ => equivalent_reversed.mp
  · exact List.Forall₂.imp fun _ _ => equivalent_reversed.mpr

/-! ## The order of lists -/

def lexLt (lt : γ → γ → Bool) : List γ → List γ → Bool
  | _, [] => false
  | [], _ :: _ => true
  | x :: l, y :: m => lt x y || !lt y x && lexLt lt l m

theorem lexLt_cons {x y : γ} {l m : List γ} :
    lexLt lt (x :: l) (y :: m) = true ↔ lt x y = true ∨ lt y x = false ∧ lexLt lt l m = true := by
  simp [lexLt]

theorem lexLt_self (h : StrictWeakOrder lt) (l : List γ) : lexLt lt l l = false := by
  induction l with
  | nil => rfl
  | cons x l ih => rw [lexLt, h.not_self, ih, Bool.and_false, Bool.or_false]

theorem lexLt_trans (h : StrictWeakOrder lt) {l m k : List γ} (hlm : lexLt lt l m = true)
    (hmk : lexLt lt m k = true) : lexLt lt l k = true := by
  induction l generalizing m k with
  | nil =>
    cases k with
    | nil => cases m <;> cases hmk
    | cons z k => rfl
  | cons x l ih =>
    cases m with
    | nil => cases hlm
    | cons y m =>
      cases k with
      | nil => cases hmk
      | cons z k =>
        rw [lexLt_cons] at hlm hmk ⊢
        obtain hxy | ⟨hyx, hlm⟩ := hlm
        · obtain hyz | ⟨hzy, -⟩ := hmk
          · exact .inl (h.trans x y z hxy hyz)
          · exact .inl (h.lt_of_lt_of_not_lt hxy hzy)
        · obtain hyz | ⟨hzy, hmk⟩ := hmk
          · exact .inl (h.lt_of_not_lt_of_lt hyx hyz)
          · exact .inr ⟨h.not_lt_trans hyx hzy, ih hlm hmk⟩

/-- The classes of the lexicographic order. -/
theorem equivalent_lexLt_iff {l m : List γ} :
    Equivalent (lexLt lt) l m ↔ List.Forall₂ (Equivalent lt) l m := by
  induction l generalizing m with
  | nil =>
    cases m with
    | nil => exact ⟨fun _ => .nil, fun _ => ⟨rfl, rfl⟩⟩
    | cons y m => exact ⟨fun h => absurd h.1 (by simp [lexLt]), fun h => by cases h⟩
  | cons x l ih =>
    cases m with
    | nil => exact ⟨fun h => absurd h.2 (by simp [lexLt]), fun h => by cases h⟩
    | cons y m =>
      rw [List.forall₂_cons, ← ih]
      unfold Equivalent
      rw [lexLt, lexLt]
      cases lt x y <;> cases lt y x <;> simp

theorem StrictWeakOrder.lexLt (h : StrictWeakOrder lt) : StrictWeakOrder (lexLt lt) where
  irrefl l := by simp [lexLt_self h l]
  trans l m k := lexLt_trans h
  incomp_trans l m k hlm hmk := by
    simp only [Bool.not_eq_true] at hlm hmk ⊢
    have hlm' := equivalent_lexLt_iff.mp hlm
    have hmk' := equivalent_lexLt_iff.mp hmk
    exact equivalent_lexLt_iff.mpr (equivalent_lists_trans h hlm' hmk')

/-- Lists of one length are ordered the other way round by the reversed order. -/
theorem lexLt_reversed {l m : List γ} (hlen : l.length = m.length) :
    lexLt (reversed lt) l m = lexLt lt m l := by
  induction l generalizing m with
  | nil => rw [List.length_eq_zero_iff.mp hlen.symm]; rfl
  | cons x l ih =>
    cases m with
    | nil => cases hlen
    | cons y m => rw [lexLt, lexLt, ih (Nat.succ.inj hlen)]; rfl

theorem lexLt_append_left (h : StrictWeakOrder lt) (p : List γ) {a b : List γ}
    (hab : lexLt lt a b = true) : lexLt lt (p ++ a) (p ++ b) = true := by
  induction p with
  | nil => exact hab
  | cons x p ih => exact lexLt_cons.mpr (.inr ⟨h.not_self x, ih⟩)

/-- What lies between two lists shares their common prefix. -/
theorem exists_of_lexLt_between (h : StrictWeakOrder lt) {p a b m : List γ}
    (ham : lexLt lt (p ++ a) m = true) (hmb : lexLt lt m (p ++ b) = true) :
    ∃ p' c, m = p' ++ c ∧ List.Forall₂ (Equivalent lt) p p' ∧ lexLt lt a c = true ∧
      lexLt lt c b = true := by
  induction p generalizing m with
  | nil => exact ⟨[], m, rfl, .nil, ham, hmb⟩
  | cons x p ih =>
    cases m with
    | nil => cases ham
    | cons y m =>
      obtain hxy | ⟨hyx, ham⟩ := lexLt_cons.mp ham
      · obtain hyx | ⟨hxy', -⟩ := lexLt_cons.mp hmb
        · rw [h.asymm hxy] at hyx
          cases hyx
        · rw [hxy] at hxy'
          cases hxy'
      · obtain hyx' | ⟨hxy, hmb⟩ := lexLt_cons.mp hmb
        · rw [hyx] at hyx'
          cases hyx'
        · obtain ⟨p', c, rfl, hp, hac, hcb⟩ := ih ham hmb
          exact ⟨y :: p', c, rfl, .cons ⟨hxy, hyx⟩ hp, hac, hcb⟩

/-! ## First and last -/

/-- The head of a rearrangement is equivalent to some element. -/
theorem Rearranges.head_class {l m : List γ} {z : γ}
    (h : Rearranges (sameClass lt) (z :: l) m) : ∃ w ∈ m, Equivalent lt z w := by
  obtain ⟨k, hperm, hrel⟩ := h
  cases hrel with
  | @cons _ w _ k hzw hrel =>
    exact ⟨w, hperm.mem_iff.mp (List.mem_cons_self (a := w) (l := k)), sameClass_iff.mp hzw⟩

/-- No rearrangement is less than a sorted list. -/
theorem lexLt_sorted (h : StrictWeakOrder lt) {l m : List γ} (hm : Sorted lt m)
    (hlm : Rearranges (sameClass lt) l m) : lexLt lt l m = false := by
  induction m generalizing l with
  | nil => cases l <;> rfl
  | cons a m ih =>
    cases l with
    | nil => cases hlm.length_eq
    | cons b l =>
      obtain ⟨ha, hm'⟩ := List.pairwise_cons.mp hm
      have hba : lt b a = false := by
        obtain ⟨w, hw, hbw, -⟩ := hlm.head_class
        obtain rfl | hw := List.mem_cons.mp hw
        · exact hbw
        · exact h.not_lt_trans (ha w hw) hbw
      rw [lexLt, hba, Bool.false_or]
      cases hab : lt a b with
      | true => rfl
      | false =>
        have hclass : sameClass lt b a = true := sameClass_iff.mpr ⟨hba, hab⟩
        exact ih hm' ((rearranges_cons_iff (isEquivalence_sameClass h) hclass l m).mp hlm)

/-- A descending list is not less than any rearrangement. -/
theorem lexLt_descending (h : StrictWeakOrder lt) {l m : List γ} (hm : Sorted (reversed lt) m)
    (hlm : Rearranges (sameClass lt) l m) : lexLt lt m l = false := by
  rw [← lexLt_reversed hlm.length_eq]
  rw [← sameClass_reversed] at hlm
  exact lexLt_sorted h.reversed hm hlm

theorem rearranges_of_perm (h : StrictWeakOrder lt) {l m : List γ} (hperm : l.Perm m) :
    Rearranges (sameClass lt) l m :=
  ⟨l, hperm, List.forall₂_same.mpr fun a _ => (isEquivalence_sameClass h).refl a⟩

theorem Rearranges.trans_perm {r : γ → γ → Bool} {l m m' : List γ} (h : Rearranges r l m)
    (hperm : m.Perm m') : Rearranges r l m' := by
  obtain ⟨k, hk, hrel⟩ := h
  exact ⟨k, hk.trans hperm, hrel⟩

def FirstRearrangement (lt : γ → γ → Bool) (l : List γ) : Prop :=
  ∀ m, l.Perm m → lexLt lt m l = false

def LastRearrangement (lt : γ → γ → Bool) (l : List γ) : Prop :=
  ∀ m, l.Perm m → lexLt lt l m = false

theorem FirstRearrangement.of_sorted (h : StrictWeakOrder lt) {l : List γ} (hl : Sorted lt l) :
    FirstRearrangement lt l := fun _ hperm =>
  lexLt_sorted h hl (rearranges_of_perm h hperm.symm)

theorem LastRearrangement.of_descending (h : StrictWeakOrder lt) {l : List γ}
    (hl : Sorted (reversed lt) l) : LastRearrangement lt l := fun _ hperm =>
  lexLt_descending h hl (rearranges_of_perm h hperm.symm)

/-! ## The next one -/

/-- `r` is the least rearrangement that is greater than `l`. -/
structure NextRearrangement (lt : γ → γ → Bool) (l r : List γ) : Prop where
  perm : l.Perm r
  less : lexLt lt l r = true
  adjacent : ∀ m, l.Perm m → lexLt lt l m = true → lexLt lt m r = false

/-- The suffix behind a common prefix is rearranged as well. -/
theorem rearranges_suffix (h : StrictWeakOrder lt) {p p' a c : List γ}
    (hp : List.Forall₂ (Equivalent lt) p p') (hperm : (p ++ a).Perm (p' ++ c)) :
    Rearranges (sameClass lt) c a := by
  rw [rearranges_iff_count (isEquivalence_sameClass h)]
  intro v
  have hcount := hperm.countP_eq (sameClass lt v)
  have hprefix := countP_of_forall₂ (isEquivalence_sameClass h) v
    (hp.imp fun _ _ => sameClass_iff.mpr)
  rw [List.countP_append, List.countP_append, hprefix] at hcount
  omega

section Pivot
variable {s₁ s₂ : List γ} {x y : γ}

/-- `x` takes the place of `y`, the last element of a descending part that is greater. -/
theorem sorted_exchange (h : StrictWeakOrder lt) (hdesc : Sorted (reversed lt) (s₁ ++ y :: s₂))
    (hxy : lt x y = true) (hs₂ : ∀ z ∈ s₂, lt x z = false) :
    Sorted (reversed lt) (s₁ ++ x :: s₂) := by
  obtain ⟨hd₁, hd₂, hcross⟩ := List.pairwise_append.mp hdesc
  refine List.pairwise_append.mpr ⟨hd₁, List.pairwise_cons.mpr ⟨hs₂, hd₂.of_cons⟩, ?_⟩
  intro a ha b hb
  obtain rfl | hb := List.mem_cons.mp hb
  · cases hab : lt a b with
    | false => exact hab
    | true =>
      have hay : lt a y = false := hcross a ha y (List.mem_cons_self ..)
      rw [h.trans a b y hab hxy] at hay
      cases hay
  · exact hcross a ha b (List.mem_cons_of_mem y hb)

theorem perm_exchange (s₁ s₂ : List γ) (x y : γ) :
    (x :: (s₁ ++ y :: s₂)).Perm (y :: (s₁ ++ x :: s₂).reverse) := by
  have hx : (x :: (s₁ ++ y :: s₂)).Perm (x :: y :: (s₁ ++ s₂)) := (List.perm_middle).cons x
  have hy : (y :: (s₁ ++ x :: s₂)).Perm (y :: x :: (s₁ ++ s₂)) := (List.perm_middle).cons y
  have hback := (List.reverse_perm (s₁ ++ x :: s₂)).symm.cons y
  exact ((hx.trans (.swap y x _)).trans hy.symm).trans hback

/-- Nothing at the pivot or behind it lies between `x` and `y`. -/
theorem not_lt_of_pivot (h : StrictWeakOrder lt) (hdesc : Sorted (reversed lt) (s₁ ++ y :: s₂))
    (hs₂ : ∀ z ∈ s₂, lt x z = false) {z : γ} {d : List γ}
    (hd : Rearranges (sameClass lt) (z :: d) (x :: (s₁ ++ y :: s₂))) (hxz : lt x z = true) :
    lt z y = false := by
  obtain ⟨-, -, hcross⟩ := List.pairwise_append.mp hdesc
  obtain ⟨w, hw, hzw, hwz⟩ := hd.head_class
  cases hzy : lt z y with
  | false => rfl
  | true =>
    have hyw : lt w y = true := h.lt_of_not_lt_of_lt hzw hzy
    have hxw : lt x w = true := h.lt_of_lt_of_not_lt hxz hwz
    obtain rfl | hw := List.mem_cons.mp hw
    · rw [h.not_self] at hxw
      cases hxw
    obtain hw | hw := List.mem_append.mp hw
    · have hwy : lt w y = false := hcross w hw y (List.mem_cons_self ..)
      rw [hwy] at hyw
      cases hyw
    obtain rfl | hw := List.mem_cons.mp hw
    · rw [h.not_self] at hyw
      cases hyw
    · rw [hs₂ w hw] at hxw
      cases hxw

/-- In front of a descending part stands a lesser `x`; `y` is the last element of that part
that is greater. -/
theorem NextRearrangement.of_pivot (h : StrictWeakOrder lt) (p : List γ)
    (hdesc : Sorted (reversed lt) (s₁ ++ y :: s₂)) (hxy : lt x y = true)
    (hs₂ : ∀ z ∈ s₂, lt x z = false) :
    NextRearrangement lt (p ++ x :: (s₁ ++ y :: s₂)) (p ++ y :: (s₁ ++ x :: s₂).reverse) := by
  have hexchange := perm_exchange s₁ s₂ x y
  have hsorted : Sorted lt (s₁ ++ x :: s₂).reverse :=
    List.pairwise_reverse.mpr (sorted_exchange h hdesc hxy hs₂)
  refine ⟨hexchange.append_left p, ?_, fun m hperm hlm => ?_⟩
  · exact lexLt_append_left h p (lexLt_cons.mpr (.inl hxy))
  by_contra hmr
  have hmr : lexLt lt m (p ++ y :: (s₁ ++ x :: s₂).reverse) = true := by simpa using hmr
  obtain ⟨p', c, rfl, hp, hlc, hcr⟩ := exists_of_lexLt_between h hlm hmr
  have hc := rearranges_suffix h hp hperm
  cases c with
  | nil => cases hlc
  | cons z d =>
    cases hxz : lt x z with
    | true =>
      have hzy := not_lt_of_pivot h hdesc hs₂ hc hxz
      obtain hzy' | ⟨hyz, hdr⟩ := lexLt_cons.mp hcr
      · rw [hzy] at hzy'
        cases hzy'
      · have hclass : sameClass lt z y = true := sameClass_iff.mpr ⟨hzy, hyz⟩
        have hd := (rearranges_cons_iff (isEquivalence_sameClass h) hclass d _).mp
          (hc.trans_perm hexchange)
        rw [lexLt_sorted h hsorted hd] at hdr
        cases hdr
    | false =>
      obtain hxz' | ⟨hzx, hsd⟩ := lexLt_cons.mp hlc
      · rw [hxz] at hxz'
        cases hxz'
      · have hclass : sameClass lt z x = true := sameClass_iff.mpr ⟨hzx, hxz⟩
        have hd := (rearranges_cons_iff (isEquivalence_sameClass h) hclass d _).mp hc
        rw [lexLt_descending h hdesc hd] at hsd
        cases hsd

end Pivot

/-- Going on and back leads to an equivalent list. -/
theorem NextRearrangement.back {l r l' : List γ} (hnext : NextRearrangement lt l r)
    (hprev : NextRearrangement (reversed lt) r l') : List.Forall₂ (Equivalent lt) l l' := by
  have hlen := hnext.perm.length_eq
  have hlen' := hprev.perm.length_eq
  refine equivalent_lexLt_iff.mp ⟨?_, ?_⟩
  · cases hlt : lexLt lt l l' with
    | false => rfl
    | true =>
      have hless := hprev.less
      rw [lexLt_reversed hlen', hnext.adjacent l' (hnext.perm.trans hprev.perm) hlt] at hless
      cases hless
  · have hless := hnext.less
    rw [← lexLt_reversed hlen.symm] at hless
    have hadj := hprev.adjacent l hnext.perm.symm hless
    rwa [lexLt_reversed (hlen.trans hlen')] at hadj

theorem LastRearrangement.equivalent {l l' : List γ} (h : LastRearrangement lt l)
    (h' : LastRearrangement lt l') (hperm : l.Perm l') : List.Forall₂ (Equivalent lt) l l' :=
  equivalent_lexLt_iff.mp ⟨h l' hperm, h' l hperm.symm⟩

/-! ## All of them -/

/-- `visited` leads from `l` to the last rearrangement, each time to the next one. -/
inductive Enumerates (lt : γ → γ → Bool) : List γ → List (List γ) → Prop where
  | last {l : List γ} (hlast : LastRearrangement lt l) : Enumerates lt l [l]
  | step {l r : List γ} {visited : List (List γ)} (hnext : NextRearrangement lt l r)
      (hrest : Enumerates lt r visited) : Enumerates lt l (l :: visited)

namespace Enumerates

variable {l : List γ} {visited : List (List γ)}

theorem perm (h : Enumerates lt l visited) : ∀ v ∈ visited, l.Perm v := by
  induction h with
  | last =>
    intro v hv
    rw [List.mem_singleton.mp hv]
  | step hnext _ ih =>
    intro v hv
    obtain rfl | hv := List.mem_cons.mp hv
    · exact .refl v
    · exact hnext.perm.trans (ih v hv)

theorem head_le (hlt : StrictWeakOrder lt) (h : Enumerates lt l visited) :
    ∀ v ∈ visited, v = l ∨ lexLt lt l v = true := by
  induction h with
  | last =>
    intro v hv
    exact .inl (List.mem_singleton.mp hv)
  | step hnext _ ih =>
    intro v hv
    obtain rfl | hv := List.mem_cons.mp hv
    · exact .inl rfl
    · obtain rfl | hrv := ih v hv
      · exact .inr hnext.less
      · exact .inr (lexLt_trans hlt hnext.less hrv)

/-- The lists come in increasing order. -/
theorem increasing (hlt : StrictWeakOrder lt) (h : Enumerates lt l visited) :
    visited.Pairwise fun v w => lexLt lt v w = true := by
  induction h with
  | last => exact List.pairwise_singleton _ _
  | step hnext hrest ih =>
    refine List.pairwise_cons.mpr ⟨fun v hv => ?_, ih⟩
    obtain rfl | hrv := hrest.head_le hlt v hv
    · exact hnext.less
    · exact lexLt_trans hlt hnext.less hrv

/-- Nothing from `l` on is left out. -/
theorem covers (h : Enumerates lt l visited) {m : List γ} (hperm : l.Perm m)
    (hle : lexLt lt m l = false) : ∃ v ∈ visited, List.Forall₂ (Equivalent lt) m v := by
  induction h with
  | last hlast =>
    exact ⟨_, List.mem_singleton_self _, equivalent_lexLt_iff.mp ⟨hle, hlast m hperm⟩⟩
  | @step l r _ hnext _ ih =>
    cases hlm : lexLt lt l m with
    | false => exact ⟨l, List.mem_cons_self .., equivalent_lexLt_iff.mp ⟨hle, hlm⟩⟩
    | true =>
      obtain ⟨v, hv, hmv⟩ := ih (hnext.perm.symm.trans hperm) (hnext.adjacent m hperm hlm)
      exact ⟨v, List.mem_cons_of_mem l hv, hmv⟩

/-- From the first rearrangement on every one is met exactly once. -/
theorem exactly_once (hlt : StrictWeakOrder lt) (h : Enumerates lt l visited)
    (hfirst : FirstRearrangement lt l) {m : List γ} (hperm : l.Perm m) :
    ∃ (i : Nat) (v : List γ), visited[i]? = some v ∧ List.Forall₂ (Equivalent lt) m v ∧
      ∀ (j : Nat) (w : List γ), visited[j]? = some w → List.Forall₂ (Equivalent lt) m w →
        j = i := by
  obtain ⟨v, hv, hmv⟩ := h.covers hperm (hfirst m hperm)
  obtain ⟨i, hi⟩ := List.mem_iff_getElem?.mp hv
  refine ⟨i, v, hi, hmv, fun j w hj hmw => ?_⟩
  have hvw : Equivalent (lexLt lt) v w :=
    (equivalent_lexLt_iff.mpr hmv).symm.trans hlt.lexLt (equivalent_lexLt_iff.mpr hmw)
  obtain ⟨hilen, rfl⟩ := List.getElem?_eq_some_iff.mp hi
  obtain ⟨hjlen, rfl⟩ := List.getElem?_eq_some_iff.mp hj
  have hincreasing := List.pairwise_iff_getElem.mp (h.increasing hlt)
  rcases Nat.lt_trichotomy i j with hij | rfl | hji
  · have hless := hincreasing i j hilen hjlen hij
    rw [hvw.1] at hless
    cases hless
  · rfl
  · have hless := hincreasing j i hjlen hilen hji
    rw [hvw.2] at hless
    cases hless

end Enumerates

/-- How many of `all` are greater than `l`. -/
def countGreater (lt : γ → γ → Bool) (all : List (List γ)) (l : List γ) : Nat :=
  all.countP (lexLt lt l)

theorem NextRearrangement.countGreater_lt (h : StrictWeakOrder lt) {l r : List γ}
    (hnext : NextRearrangement lt l r) {all : List (List γ)} (hr : r ∈ all) :
    countGreater lt all r < countGreater lt all l := by
  obtain ⟨a, b, rfl⟩ := List.append_of_mem hr
  have hmono (m : List (List γ)) : m.countP (lexLt lt r) ≤ m.countP (lexLt lt l) :=
    List.countP_mono_left fun v _ hv => lexLt_trans h hnext.less hv
  have ha := hmono a
  have hb := hmono b
  unfold countGreater
  rw [List.countP_append, List.countP_append, List.countP_cons_of_neg (by simp [lexLt_self h]),
    List.countP_cons_of_pos hnext.less]
  omega

end EARanges.Support
