import EARanges.Support.MergePolicy
import EARanges.Support.StableOrder

/-!
# Merging two sorted lists, class by class

Two lists sorted by keys under one strict weak order are merged by a policy that treats
the rest of a list as it treats a smaller head. The members of a class are contiguous in
both lists, so the merge pairs them off: what it emits in the class is determined by the
two sublists of members alone (`Keyed.classes`), and what it emits is sorted
(`Keyed.sorted`).
-/
namespace EARanges.Support

variable {α β γ κ : Type}

/-- The elements whose keys are in the class of `c`. -/
def members (pred : κ → κ → Bool) (proj : α → κ) (c : κ) (l : List α) : List α :=
  l.filter fun x => sameClass pred c (proj x)

section
variable {pred : κ → κ → Bool} {proj : α → κ} {c : κ} {x : α} {l : List α}

@[simp] theorem members_nil : members pred proj c ([] : List α) = [] := rfl

theorem members_cons_of_mem (h : sameClass pred c (proj x) = true) :
    members pred proj c (x :: l) = x :: members pred proj c l := List.filter_cons_of_pos h

theorem members_cons_of_not_mem (h : ¬ sameClass pred c (proj x) = true) :
    members pred proj c (x :: l) = members pred proj c l := List.filter_cons_of_neg h

theorem members_append (m : List α) :
    members pred proj c (l ++ m) = members pred proj c l ++ members pred proj c m :=
  List.filter_append ..

/-- A list above a member of the class has no member of it. -/
theorem members_eq_nil (horder : StrictWeakOrder pred) {k : κ} (hk : sameClass pred c k = true)
    (h : ∀ x ∈ l, pred k (proj x) = true) : members pred proj c l = [] := by
  apply List.filter_eq_nil_iff.mpr
  intro x hx hclass
  have hnot := not_lt_of_sameClass horder hk hclass
  rw [h x hx] at hnot
  cases hnot

end

/-- Keys neither of which is less are in the same classes. -/
theorem sameClass_congr {pred : κ → κ → Bool} (horder : StrictWeakOrder pred) {a b : κ}
    (hab : pred a b = false) (hba : pred b a = false) (c : κ) :
    sameClass pred c a = sameClass pred c b := by
  have himp : ∀ {a b : κ}, pred a b = false → pred b a = false →
      sameClass pred c a = true → sameClass pred c b = true := by
    intro a b hab hba h
    simp only [sameClass, Bool.and_eq_true, Bool.not_eq_true'] at h ⊢
    exact ⟨horder.not_lt_trans hab h.1, horder.not_lt_trans h.2 hba⟩
  rw [Bool.eq_iff_iff]
  exact ⟨himp hab hba, himp hba hab⟩

/-- Every key has its own class. -/
theorem sameClass_self {pred : κ → κ → Bool} (horder : StrictWeakOrder pred) (c : κ) :
    sameClass pred c c = true := by
  rw [sameClass, horder.not_self]
  rfl

namespace MergePolicy

/-- A merge of lists with keys: `compare` is the order of the keys, what is emitted keeps
its key, and the rest of a list is treated like a smaller head. -/
structure Keyed (p : MergePolicy α β γ) (compare : α → β → Ordering) (pred : κ → κ → Bool)
    (proj1 : α → κ) (proj2 : β → κ) (key : γ → κ) : Prop where
  order : StrictWeakOrder pred
  lt : ∀ {x y}, compare x y = .lt → pred (proj1 x) (proj2 y) = true
  gt : ∀ {x y}, compare x y = .gt → pred (proj2 y) (proj1 x) = true
  eq : ∀ {x y}, compare x y = .eq →
    pred (proj1 x) (proj2 y) = false ∧ pred (proj2 y) (proj1 x) = false
  rest1 : p.rest1 = p.less
  rest2 : p.rest2 = p.greater
  key_less : ∀ f, p.less = some f → ∀ x, key (f x) = proj1 x
  key_greater : ∀ f, p.greater = some f → ∀ y, key (f y) = proj2 y
  key_equal : ∀ f, p.equal = some f → ∀ x, key (f x) = proj1 x

/-- What a merge emits of two lists of members of one class. -/
def paired (p : MergePolicy α β γ) (as : List α) (bs : List β) : List γ :=
  restOf p.equal (as.take bs.length) ++
    (restOf p.less (as.drop bs.length) ++ restOf p.greater (bs.drop as.length))

@[simp] theorem restOf_nil {δ : Type} (f : Option (δ → γ)) : restOf f [] = [] := by
  cases f <;> rfl

theorem restOf_append {δ : Type} (f : Option (δ → γ)) (l m : List δ) :
    restOf f (l ++ m) = restOf f l ++ restOf f m := by
  cases f with
  | none => rfl
  | some f => exact List.map_append ..

theorem restOf_cons {δ : Type} (f : Option (δ → γ)) (x : δ) (l : List δ) :
    restOf f (x :: l) = restOf f [x] ++ restOf f l := restOf_append f [x] l

theorem mem_restOf {δ : Type} {f : Option (δ → γ)} {l : List δ} {z : γ} (h : z ∈ restOf f l) :
    ∃ g, f = some g ∧ ∃ x ∈ l, g x = z := by
  cases f with
  | none => cases h
  | some g => exact ⟨g, rfl, List.mem_map.mp h⟩

/-- The members among what is emitted of a list. -/
theorem members_restOf {δ : Type} {pred : κ → κ → Bool} {key : γ → κ} {proj : δ → κ}
    {f : Option (δ → γ)} (hkey : ∀ g, f = some g → ∀ x, key (g x) = proj x) (c : κ)
    (l : List δ) : members pred key c (restOf f l) = restOf f (members pred proj c l) := by
  cases f with
  | none => rfl
  | some g =>
    unfold members restOf
    rw [List.filter_map]
    congr 1
    apply List.filter_congr
    intro x _
    exact congrArg (sameClass pred c) (hkey g rfl x)

/-- A turn that compares two heads emits one of them or passes it over. -/
theorem emits_of_keep {δ σ : Type} {turn : σ → Turn σ γ} {s s' : σ}
    {zs : List γ} {f : Option (δ → γ)} {x : δ} (h : Emits turn s zs)
    (hturn : turn s = keep f x s') : ∃ zs', zs = restOf f [x] ++ zs' ∧ Emits turn s' zs' := by
  cases f with
  | none => exact ⟨zs, rfl, h.of_skip hturn⟩
  | some f =>
    obtain ⟨zs', rfl, hrest⟩ := h.of_emit hturn
    exact ⟨zs', rfl, hrest⟩

variable {p : MergePolicy α β γ} {compare : α → β → Ordering} {pred : κ → κ → Bool}
  {proj1 : α → κ} {proj2 : β → κ} {key : γ → κ} {xs : List α} {ys : List β}

/-- What a merge emits, by the turn it is emitted in. The rest of a list is emitted at once. -/
theorem merge_induction {motive : (i j : Nat) → (zs : List γ) →
      Emits (turn p compare xs ys) (i, j) zs → Prop}
    (lt : ∀ i j zs (hi : i < xs.length) (hj : j < ys.length), compare xs[i] ys[j] = .lt →
      ∀ hrest : Emits (turn p compare xs ys) (i + 1, j) zs, motive (i + 1) j zs hrest →
        ∀ h : Emits _ (i, j) (restOf p.less [xs[i]] ++ zs), motive i j _ h)
    (gt : ∀ i j zs (hi : i < xs.length) (hj : j < ys.length), compare xs[i] ys[j] = .gt →
      ∀ hrest : Emits (turn p compare xs ys) (i, j + 1) zs, motive i (j + 1) zs hrest →
        ∀ h : Emits _ (i, j) (restOf p.greater [ys[j]] ++ zs), motive i j _ h)
    (eq : ∀ i j zs (hi : i < xs.length) (hj : j < ys.length), compare xs[i] ys[j] = .eq →
      ∀ hrest : Emits (turn p compare xs ys) (i + 1, j + 1) zs, motive (i + 1) (j + 1) zs hrest →
        ∀ h : Emits _ (i, j) (restOf p.equal [xs[i]] ++ zs), motive i j _ h)
    (rest1 : ∀ i j, ys.length ≤ j →
      ∀ h : Emits _ (i, j) (restOf p.rest1 (xs.drop i)), motive i j _ h)
    (rest2 : ∀ i j, xs.length ≤ i →
      ∀ h : Emits _ (i, j) (restOf p.rest2 (ys.drop j)), motive i j _ h)
    {i j : Nat} {zs : List γ} (hzs : Emits (turn p compare xs ys) (i, j) zs) :
    motive i j zs hzs := by
  induction hk : remaining xs ys (i, j) using Nat.strongRecOn generalizing i j zs with
  | ind k ih =>
    subst hk
    unfold remaining at ih
    dsimp only at ih
    cases turnCase p compare xs ys i j with
    | lt hi hj hcompare hturn =>
      obtain ⟨zs', rfl, hrest⟩ := emits_of_keep hzs hturn
      exact lt i j _ hi hj hcompare hrest (ih _ (by omega) hrest rfl) hzs
    | gt hi hj hcompare hturn =>
      obtain ⟨zs', rfl, hrest⟩ := emits_of_keep hzs hturn
      exact gt i j _ hi hj hcompare hrest (ih _ (by omega) hrest rfl) hzs
    | eq hi hj hcompare hturn =>
      obtain ⟨zs', rfl, hrest⟩ := emits_of_keep hzs hturn
      exact eq i j _ hi hj hcompare hrest (ih _ (by omega) hrest rfl) hzs
    | rest1 hi hj _ =>
      obtain rfl := hzs.unique (emits_rest1 hj)
      exact rest1 i j hj hzs
    | rest2 hi hj _ =>
      obtain rfl := hzs.unique (emits_rest2 hi)
      exact rest2 i j hi hzs
    | ended hi hj _ =>
      obtain rfl := hzs.unique (emits_rest1 hj)
      exact rest1 i j hj hzs

/-- What is emitted from `(i, j)` on has the keys of what is left. -/
theorem Keyed.mem_key (h : Keyed p compare pred proj1 proj2 key) {i j : Nat} {zs : List γ}
    (hzs : Emits (turn p compare xs ys) (i, j) zs) {z : γ} (hz : z ∈ zs) :
    (∃ x ∈ xs.drop i, key z = proj1 x) ∨ ∃ y ∈ ys.drop j, key z = proj2 y := by
  induction hzs using merge_induction with
  | lt i j zs hi hj _ _ ih =>
    rw [List.drop_eq_getElem_cons hi]
    rcases List.mem_append.mp hz with hz | hz
    · obtain ⟨f, hf, x, hx, rfl⟩ := mem_restOf hz
      obtain rfl := List.mem_singleton.mp hx
      exact .inl ⟨_, List.mem_cons_self .., h.key_less f hf _⟩
    · rcases ih hz with ⟨x, hx, hkey⟩ | hright
      · exact .inl ⟨x, List.mem_cons_of_mem _ hx, hkey⟩
      · exact .inr hright
  | gt i j zs hi hj _ _ ih =>
    rw [List.drop_eq_getElem_cons hj]
    rcases List.mem_append.mp hz with hz | hz
    · obtain ⟨f, hf, y, hy, rfl⟩ := mem_restOf hz
      obtain rfl := List.mem_singleton.mp hy
      exact .inr ⟨_, List.mem_cons_self .., h.key_greater f hf _⟩
    · rcases ih hz with hleft | ⟨y, hy, hkey⟩
      · exact .inl hleft
      · exact .inr ⟨y, List.mem_cons_of_mem _ hy, hkey⟩
  | eq i j zs hi hj _ _ ih =>
    rw [List.drop_eq_getElem_cons hi, List.drop_eq_getElem_cons hj]
    rcases List.mem_append.mp hz with hz | hz
    · obtain ⟨f, hf, x, hx, rfl⟩ := mem_restOf hz
      obtain rfl := List.mem_singleton.mp hx
      exact .inl ⟨_, List.mem_cons_self .., h.key_equal f hf _⟩
    · rcases ih hz with ⟨x, hx, hkey⟩ | ⟨y, hy, hkey⟩
      · exact .inl ⟨x, List.mem_cons_of_mem _ hx, hkey⟩
      · exact .inr ⟨y, List.mem_cons_of_mem _ hy, hkey⟩
  | rest1 i j hj =>
    rw [h.rest1] at hz
    obtain ⟨f, hf, x, hx, rfl⟩ := mem_restOf hz
    exact .inl ⟨x, hx, h.key_less f hf x⟩
  | rest2 i j hi =>
    rw [h.rest2] at hz
    obtain ⟨f, hf, y, hy, rfl⟩ := mem_restOf hz
    exact .inr ⟨y, hy, h.key_greater f hf y⟩

/-- A list is sorted by its keys. -/
abbrev SortedBy (pred : κ → κ → Bool) (proj : α → κ) (l : List α) : Prop :=
  Sorted (projected pred proj) l

/-- The head is not above what follows, and what follows is sorted. -/
theorem sortedBy_drop {i : Nat} (h : SortedBy pred proj1 xs) (hi : i < xs.length) :
    (∀ x ∈ xs.drop (i + 1), pred (proj1 x) (proj1 xs[i]) = false) := by
  have hdrop := List.Pairwise.drop (i := i) h
  rw [List.drop_eq_getElem_cons hi] at hdrop
  exact (List.pairwise_cons.mp hdrop).1

/-- What is below the head is below all that is left. -/
theorem lt_of_mem_drop (horder : StrictWeakOrder pred) {i : Nat} (h : SortedBy pred proj1 xs)
    (hi : i < xs.length) {c : κ} (hlt : pred c (proj1 xs[i]) = true) :
    ∀ x ∈ xs.drop i, pred c (proj1 x) = true := by
  intro x hx
  rw [List.drop_eq_getElem_cons hi] at hx
  rcases List.mem_cons.mp hx with rfl | hx
  · exact hlt
  · exact horder.lt_of_lt_of_not_lt hlt (sortedBy_drop h hi x hx)

/-- Puts an element in front of what is emitted, if it is emitted and not above the
lists that are left. -/
theorem Keyed.sorted_append (h : Keyed p compare pred proj1 proj2 key) {i j : Nat} {zs : List γ}
    (hzs : Emits (turn p compare xs ys) (i, j) zs) (hsorted : SortedBy pred key zs) {δ : Type}
    {f : Option (δ → γ)} {proj : δ → κ} {w : δ} (hkey : ∀ g, f = some g → ∀ x, key (g x) = proj x)
    (hleft : ∀ x ∈ xs.drop i, pred (proj1 x) (proj w) = false)
    (hright : ∀ y ∈ ys.drop j, pred (proj2 y) (proj w) = false) :
    SortedBy pred key (restOf f [w] ++ zs) := by
  cases f with
  | none => exact hsorted
  | some g =>
    refine List.pairwise_cons.mpr ⟨fun z hz => ?_, hsorted⟩
    unfold projected
    rw [hkey g rfl w]
    rcases h.mem_key hzs hz with ⟨x, hx, heq⟩ | ⟨y, hy, heq⟩
    · rw [heq]
      exact hleft x hx
    · rw [heq]
      exact hright y hy

/-- The rest of a sorted list is sorted. -/
theorem sorted_restOf {δ : Type} {proj : δ → κ} {l : List δ} (hl : SortedBy pred proj l) (k : Nat)
    {f : Option (δ → γ)} (hkey : ∀ g, f = some g → ∀ x, key (g x) = proj x) :
    SortedBy pred key (restOf f (l.drop k)) := by
  cases f with
  | none => exact List.Pairwise.nil
  | some g =>
    refine (List.Pairwise.drop hl).map g fun a b hab => ?_
    unfold projected
    rw [hkey g rfl, hkey g rfl]
    exact hab

theorem Keyed.sorted_from (h : Keyed p compare pred proj1 proj2 key)
    (hxs : SortedBy pred proj1 xs) (hys : SortedBy pred proj2 ys) {i j : Nat} {zs : List γ}
    (hzs : Emits (turn p compare xs ys) (i, j) zs) : SortedBy pred key zs := by
  induction hzs using merge_induction with
  | lt i j zs hi hj hcompare hrest ih =>
    have hlt := lt_of_mem_drop h.order hys hj (h.lt hcompare)
    exact h.sorted_append hrest ih h.key_less (sortedBy_drop hxs hi)
      fun y hy => h.order.asymm (hlt y hy)
  | gt i j zs hi hj hcompare hrest ih =>
    have hgt := lt_of_mem_drop h.order hxs hi (h.gt hcompare)
    exact h.sorted_append hrest ih h.key_greater (fun x hx => h.order.asymm (hgt x hx))
      (sortedBy_drop hys hj)
  | eq i j zs hi hj hcompare hrest ih =>
    refine h.sorted_append hrest ih h.key_equal (sortedBy_drop hxs hi) fun y hy => ?_
    exact h.order.not_lt_trans (h.eq hcompare).2 (sortedBy_drop hys hj y hy)
  | rest1 i j hj =>
    rw [h.rest1]
    exact sorted_restOf hxs _ h.key_less
  | rest2 i j hi =>
    rw [h.rest2]
    exact sorted_restOf hys _ h.key_greater

/-- Sorted operands give a sorted result. -/
theorem Keyed.sorted (h : Keyed p compare pred proj1 proj2 key) (hxs : SortedBy pred proj1 xs)
    (hys : SortedBy pred proj2 ys) {zs : List γ}
    (hzs : Emits (turn p compare xs ys) (0, 0) zs) : SortedBy pred key zs :=
  h.sorted_from hxs hys hzs

@[simp] theorem paired_nil_right (as : List α) : paired p as [] = restOf p.less as := by
  rw [paired, List.length_nil, List.take_zero, List.drop_zero, List.drop_nil, restOf_nil,
    restOf_nil, List.nil_append, List.append_nil]

@[simp] theorem paired_nil_left (bs : List β) : paired p [] bs = restOf p.greater bs := by
  rw [paired, List.take_nil, List.drop_nil, List.length_nil, List.drop_zero, restOf_nil,
    restOf_nil, List.nil_append, List.nil_append]

theorem paired_cons_cons (a : α) (as : List α) (b : β) (bs : List β) :
    paired p (a :: as) (b :: bs) = restOf p.equal [a] ++ paired p as bs := by
  rw [paired, List.length_cons, List.take_succ_cons, List.drop_succ_cons, List.length_cons,
    List.drop_succ_cons, restOf_cons p.equal a, List.append_assoc]
  rfl

theorem Keyed.classes_from (h : Keyed p compare pred proj1 proj2 key)
    (hxs : SortedBy pred proj1 xs) (hys : SortedBy pred proj2 ys) (c : κ) {i j : Nat}
    {zs : List γ} (hzs : Emits (turn p compare xs ys) (i, j) zs) :
    members pred key c zs =
      paired p (members pred proj1 c (xs.drop i)) (members pred proj2 c (ys.drop j)) := by
  induction hzs using merge_induction with
  | lt i j zs hi hj hcompare _ ih =>
    rw [members_append, members_restOf h.key_less, ih, List.drop_eq_getElem_cons hi]
    by_cases hc : sameClass pred c (proj1 xs[i]) = true
    · -- the second list is above the head, hence without members
      have hnone : members pred proj2 c (ys.drop j) = [] :=
        members_eq_nil h.order hc (lt_of_mem_drop h.order hys hj (h.lt hcompare))
      rw [hnone, members_cons_of_mem hc, members_cons_of_mem hc, members_nil,
        paired_nil_right, paired_nil_right, ← restOf_cons]
    · rw [members_cons_of_not_mem hc, members_cons_of_not_mem hc, members_nil, restOf_nil,
        List.nil_append]
  | gt i j zs hi hj hcompare _ ih =>
    rw [members_append, members_restOf h.key_greater, ih, List.drop_eq_getElem_cons hj]
    by_cases hc : sameClass pred c (proj2 ys[j]) = true
    · have hnone : members pred proj1 c (xs.drop i) = [] :=
        members_eq_nil h.order hc (lt_of_mem_drop h.order hxs hi (h.gt hcompare))
      rw [hnone, members_cons_of_mem hc, members_cons_of_mem hc, members_nil,
        paired_nil_left, paired_nil_left, ← restOf_cons]
    · rw [members_cons_of_not_mem hc, members_cons_of_not_mem hc, members_nil, restOf_nil,
        List.nil_append]
  | eq i j zs hi hj hcompare _ ih =>
    have heq := h.eq hcompare
    have hboth := sameClass_congr h.order heq.1 heq.2 c
    rw [members_append, members_restOf h.key_equal, ih, List.drop_eq_getElem_cons hi,
      List.drop_eq_getElem_cons hj]
    by_cases hc : sameClass pred c (proj1 xs[i]) = true
    · rw [members_cons_of_mem hc, members_cons_of_mem hc, members_cons_of_mem (hboth ▸ hc),
        members_nil, paired_cons_cons]
    · rw [members_cons_of_not_mem hc, members_cons_of_not_mem hc,
        members_cons_of_not_mem (hboth ▸ hc), members_nil, restOf_nil, List.nil_append]
  | rest1 i j hj =>
    rw [h.rest1, members_restOf h.key_less, List.drop_of_length_le hj, members_nil,
      paired_nil_right]
  | rest2 i j hi =>
    rw [h.rest2, members_restOf h.key_greater, List.drop_of_length_le hi, members_nil,
      paired_nil_left]

/-- In every class the result is what the merge emits of its members. -/
theorem Keyed.classes (h : Keyed p compare pred proj1 proj2 key) (hxs : SortedBy pred proj1 xs)
    (hys : SortedBy pred proj2 ys) (c : κ) {zs : List γ}
    (hzs : Emits (turn p compare xs ys) (0, 0) zs) :
    members pred key c zs = paired p (members pred proj1 c xs) (members pred proj2 c ys) :=
  h.classes_from hxs hys c hzs

end MergePolicy

end EARanges.Support
