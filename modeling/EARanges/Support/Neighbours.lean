import EARanges.Support.KeptPositions
import EARanges.Support.StableOrder

/-!
# Elements kept by their right neighbour

A relation decides for every element but the last whether it is kept, by looking at the
element behind it. As a test of positions this is `keepsNext`, and the number of kept elements
from a position on says how many positions passed it before (`KeptNumber`).
-/
namespace EARanges.Support

variable {α : Type}

/-- The elements that are last or that `pred` does not relate to the next one. -/
def keptByNext (pred : α → α → Bool) : List α → List α
  | [] => []
  | [x] => [x]
  | x :: y :: l => if pred x y then keptByNext pred (y :: l) else x :: keptByNext pred (y :: l)

def KeepsAt (pred : α → α → Bool) (l : List α) (k : Nat) : Prop :=
  k + 1 = l.length ∨ ∃ x y, l[k]? = some x ∧ l[k + 1]? = some y ∧ pred x y = false

def DropsAt (pred : α → α → Bool) (l : List α) (k : Nat) : Prop :=
  ∃ x y, l[k]? = some x ∧ l[k + 1]? = some y ∧ pred x y = true

variable {pred : α → α → Bool} {l : List α} {k s t i : Nat}

theorem keptByNext_sublist (pred : α → α → Bool) (l : List α) : (keptByNext pred l).Sublist l := by
  fun_induction keptByNext pred l with
  | case1 => exact .slnil
  | case2 x => exact .refl [x]
  | case3 x y l _ ih => exact ih.cons x
  | case4 x y l _ ih => exact ih.cons_cons x

theorem KeepsAt.lt (h : KeepsAt pred l k) : k < l.length := by
  obtain hlast | ⟨x, y, hx, -, -⟩ := h
  · omega
  · exact (List.getElem?_eq_some_iff.mp hx).1

theorem keepsAt_or_dropsAt (pred : α → α → Bool) (hk : k < l.length) :
    KeepsAt pred l k ∨ DropsAt pred l k := by
  by_cases hlast : k + 1 = l.length
  · exact .inl (.inl hlast)
  · have hx := List.getElem?_eq_getElem hk
    have hy : l[k + 1]? = some l[k + 1] := List.getElem?_eq_getElem (by omega)
    cases htest : pred l[k] l[k + 1] with
    | false => exact .inl (.inr ⟨_, _, hx, hy, htest⟩)
    | true => exact .inr ⟨_, _, hx, hy, htest⟩

theorem KeepsAt.not_dropsAt (h : KeepsAt pred l k) : ¬ DropsAt pred l k := by
  rintro ⟨x, y, hx, hy, hdrop⟩
  obtain hlast | ⟨x', y', hx', hy', hkeep⟩ := h
  · have := (List.getElem?_eq_some_iff.mp hy).1
    omega
  · rw [Option.some.inj (hx.symm.trans hx'), Option.some.inj (hy.symm.trans hy'), hkeep] at hdrop
    cases hdrop

/-! ## What is kept from a position on -/

theorem drop_of_get {x : α} (hx : l[k]? = some x) : l.drop k = x :: l.drop (k + 1) := by
  obtain ⟨hk, rfl⟩ := List.getElem?_eq_some_iff.mp hx
  exact List.drop_eq_getElem_cons hk

theorem KeepsAt.kept_drop (h : KeepsAt pred l k) :
    ∃ x, l[k]? = some x ∧ keptByNext pred (l.drop k) = x :: keptByNext pred (l.drop (k + 1)) := by
  obtain ⟨x, hx⟩ : ∃ x, l[k]? = some x := ⟨_, List.getElem?_eq_getElem h.lt⟩
  obtain hlast | ⟨x', y, hx', hy, hkeep⟩ := h
  · refine ⟨x, hx, ?_⟩
    rw [drop_of_get hx, List.drop_of_length_le (Nat.le_of_eq hlast.symm)]
    rfl
  · refine ⟨x', hx', ?_⟩
    rw [drop_of_get hx', drop_of_get hy, keptByNext, hkeep, if_neg Bool.false_ne_true]

theorem DropsAt.kept_drop (h : DropsAt pred l k) :
    keptByNext pred (l.drop k) = keptByNext pred (l.drop (k + 1)) := by
  obtain ⟨x, y, hx, hy, hdrop⟩ := h
  rw [drop_of_get hx, drop_of_get hy, keptByNext, if_pos hdrop]

/-! ## As a test of positions -/

def keepsNext (pred : α → α → Bool) (l : List α) (k : Nat) : Bool :=
  match l.drop k with
  | [] => false
  | [_] => true
  | x :: y :: _ => !pred x y

theorem KeepsAt.keepsNext (h : KeepsAt pred l k) : keepsNext pred l k = true := by
  obtain hlast | ⟨x, y, hx, hy, hkeep⟩ := h
  · have hx : l[k]? = some l[k] := List.getElem?_eq_getElem (by omega)
    rw [Support.keepsNext, drop_of_get hx, List.drop_of_length_le (Nat.le_of_eq hlast.symm)]
  · rw [Support.keepsNext, drop_of_get hx, drop_of_get hy]
    exact congrArg not hkeep

theorem DropsAt.keepsNext (h : DropsAt pred l k) : keepsNext pred l k = false := by
  obtain ⟨x, y, hx, hy, hdrop⟩ := h
  rw [Support.keepsNext, drop_of_get hx, drop_of_get hy]
  exact congrArg not hdrop

theorem keepsAt_of_keepsNext (hk : k < l.length) (h : keepsNext pred l k = true) :
    KeepsAt pred l k := by
  obtain hkeep | hdrop := keepsAt_or_dropsAt pred hk
  · exact hkeep
  · rw [hdrop.keepsNext] at h
    cases h

/-- What is kept before a position, and what is kept from there on. -/
theorem keptBefore_append (pred : α → α → Bool) (hs : s ≤ l.length) :
    keptBefore (keepsNext pred l) l s ++ keptByNext pred (l.drop s) = keptByNext pred l := by
  induction s with
  | zero => rfl
  | succ s ih =>
    rw [keptBefore_succ _ hs, List.append_assoc, ← ih (Nat.le_of_lt hs)]
    congr 1
    obtain hkeep | hdrop := keepsAt_or_dropsAt pred hs
    · obtain ⟨x, hx, heq⟩ := hkeep.kept_drop
      obtain ⟨_, rfl⟩ := List.getElem?_eq_some_iff.mp hx
      rw [if_pos hkeep.keepsNext, heq]
      rfl
    · rw [if_neg (by simp [hdrop.keepsNext]), hdrop.kept_drop]
      rfl

theorem keptAt_keepsNext (pred : α → α → Bool) (l : List α) :
    keptAt (keepsNext pred l) l = keptByNext pred l := by
  have happend := keptBefore_append pred (Nat.le_refl l.length)
  rwa [List.drop_length, keptByNext, List.append_nil] at happend

/-! ## Numbering the positions that are kept -/

/-- The first position from `s` on that is kept, or the end. -/
structure FirstKept (pred : α → α → Bool) (l : List α) (s t : Nat) : Prop where
  le : s ≤ t
  stands : t = l.length ∨ KeepsAt pred l t
  between : ∀ k, s ≤ k → k < t → DropsAt pred l k

/-- The last position before `s` that is kept. -/
structure LastKept (pred : α → α → Bool) (l : List α) (s t : Nat) : Prop where
  lt : t < s
  keeps : KeepsAt pred l t
  between : ∀ k, t < k → k < s → DropsAt pred l k

/-- `s` is the position of the kept element number `i`, or the end, whose number is the
number of elements kept. -/
structure KeptNumber (pred : α → α → Bool) (l : List α) (i s : Nat) : Prop where
  stands : s = l.length ∨ KeepsAt pred l s
  count : i + (keptByNext pred (l.drop s)).length = (keptByNext pred l).length

theorem keptNumber_iff : KeptNumber pred l i s ↔ PassNumber (keepsNext pred l) l i s := by
  have hlength (hs : s ≤ l.length) : passed (keepsNext pred l) s +
      (keptByNext pred (l.drop s)).length = (keptByNext pred l).length := by
    rw [← length_keptBefore _ hs, ← List.length_append, keptBefore_append pred hs]
  constructor
  · rintro ⟨hend | hkeep, hcount⟩
    · have htotal := hlength (Nat.le_of_eq hend)
      exact ⟨.inl hend, by omega⟩
    · have htotal := hlength (Nat.le_of_lt hkeep.lt)
      exact ⟨.inr ⟨hkeep.lt, hkeep.keepsNext⟩, by omega⟩
  · intro h
    refine ⟨h.stands.imp_right fun hkeep => keepsAt_of_keepsNext hkeep.1 hkeep.2, ?_⟩
    rw [← h.number]
    exact hlength h.le

theorem FirstKept.firstFrom (h : FirstKept pred l s t) : FirstFrom (keepsNext pred l) l s t where
  le := h.le
  stands := h.stands.imp_right fun hkeep => ⟨hkeep.lt, hkeep.keepsNext⟩
  between k hk hkt := (h.between k hk hkt).keepsNext

theorem LastKept.lastBefore (h : LastKept pred l s t) : LastBefore (keepsNext pred l) s t where
  lt := h.lt
  keeps := h.keeps.keepsNext
  between k hk hks := (h.between k hk hks).keepsNext

theorem FirstKept.number_zero (h : FirstKept pred l 0 s) : KeptNumber pred l 0 s :=
  keptNumber_iff.mpr h.firstFrom.number_zero

theorem KeptNumber.le (h : KeptNumber pred l i s) : s ≤ l.length := (keptNumber_iff.mp h).le

theorem KeptNumber.end_iff (h : KeptNumber pred l i s) :
    s = l.length ↔ i = (keptByNext pred l).length := by
  rw [← keptAt_keepsNext]
  exact (keptNumber_iff.mp h).end_iff

theorem KeptNumber.keeps (h : KeptNumber pred l i s) (hi : i < (keptByNext pred l).length) :
    KeepsAt pred l s :=
  h.stands.resolve_left fun hend => Nat.ne_of_lt hi (h.end_iff.mp hend)

/-- The element there is the one with that number. -/
theorem KeptNumber.get {x : α} (h : KeptNumber pred l i s)
    (hx : (keptByNext pred l)[i]? = some x) : l[s]? = some x := by
  rw [← keptAt_keepsNext] at hx
  exact (keptNumber_iff.mp h).get hx

theorem KeptNumber.next (h : KeptNumber pred l i s) (hi : i < (keptByNext pred l).length)
    (ht : FirstKept pred l (s + 1) t) : KeptNumber pred l (i + 1) t := by
  rw [← keptAt_keepsNext] at hi
  exact keptNumber_iff.mpr ((keptNumber_iff.mp h).next hi ht.firstFrom)

theorem KeptNumber.prev (h : KeptNumber pred l (i + 1) s) (ht : LastKept pred l s t) :
    KeptNumber pred l i t :=
  keptNumber_iff.mpr ((keptNumber_iff.mp h).prev ht.lastBefore)

/-- A position whose number is not zero lies behind the first kept one. -/
theorem KeptNumber.first_lt {first : Nat} (h : KeptNumber pred l (i + 1) s)
    (hfirst : FirstKept pred l 0 first) : first < s :=
  (keptNumber_iff.mp h).first_lt hfirst.firstFrom

theorem KeptNumber.unique (h : KeptNumber pred l i s) (h' : KeptNumber pred l i t) : s = t :=
  (keptNumber_iff.mp h).unique (keptNumber_iff.mp h')

/-! ## The first related pair -/

/-- The first position related to the next one; the last position if there is none. -/
def firstPair (pred : α → α → Bool) (l : List α) : Nat :=
  (l.zip l.tail).findIdx fun p => pred p.1 p.2

theorem length_zip_tail (l : List α) : (l.zip l.tail).length = l.length - 1 := by
  rw [List.length_zip, List.length_tail]
  omega

theorem dropsAt_iff_zip_tail :
    DropsAt pred l k ↔ ∃ p, (l.zip l.tail)[k]? = some p ∧ pred p.1 p.2 = true := by
  constructor
  · rintro ⟨x, y, hx, hy, htest⟩
    refine ⟨(x, y), ?_, htest⟩
    rw [List.getElem?_zip_eq_some, List.getElem?_tail]
    exact ⟨hx, hy⟩
  · rintro ⟨⟨x, y⟩, hpair, htest⟩
    rw [List.getElem?_zip_eq_some, List.getElem?_tail] at hpair
    exact ⟨x, y, hpair.1, hpair.2, htest⟩

theorem dropsAt_firstPair (h : firstPair pred l + 1 < l.length) :
    DropsAt pred l (firstPair pred l) := by
  have hlt : firstPair pred l < (l.zip l.tail).length := by
    rw [length_zip_tail]
    omega
  have htest := List.findIdx_getElem (p := fun p : α × α => pred p.1 p.2) (w := hlt)
  exact dropsAt_iff_zip_tail.mpr ⟨_, List.getElem?_eq_getElem hlt, htest⟩

theorem not_dropsAt_of_lt_firstPair (h : k < firstPair pred l) : ¬ DropsAt pred l k := by
  intro hdrop
  obtain ⟨p, hp, htest⟩ := dropsAt_iff_zip_tail.mp hdrop
  obtain ⟨_, rfl⟩ := List.getElem?_eq_some_iff.mp hp
  exact Bool.false_ne_true ((List.not_of_lt_findIdx h).symm.trans htest)

/-- There is no such pair if the test fails for all. -/
theorem length_le_firstPair_iff (pred : α → α → Bool) (l : List α) :
    l.length ≤ firstPair pred l + 1 ↔ (l.zip l.tail).all (fun p => !pred p.1 p.2) = true := by
  have hle : firstPair pred l ≤ (l.zip l.tail).length := List.findIdx_le_length
  rw [length_zip_tail] at hle
  have hall : firstPair pred l = (l.zip l.tail).length ↔ _ := List.findIdx_eq_length
  rw [length_zip_tail] at hall
  have hend : l.length ≤ firstPair pred l + 1 ↔ firstPair pred l = l.length - 1 := by omega
  rw [hend, hall]
  simp

/-! ## Neighbours in order -/

/-- An element that is less than its left neighbour is all that keeps a list from being sorted. -/
theorem sorted_iff_not_dropsAt {lt : α → α → Bool} (horder : StrictWeakOrder lt) :
    Sorted lt l ↔ ∀ k, ¬ DropsAt (fun x y => lt y x) l k := by
  have htrans : IsTrans α fun x y => lt y x = false :=
    ⟨fun x y z hxy hyz => horder.not_lt_trans hxy hyz⟩
  rw [Sorted, ← List.isChain_iff_pairwise, List.isChain_iff_getElem]
  constructor
  · rintro hchain k ⟨x, y, hx, hy, hlt⟩
    obtain ⟨_, rfl⟩ := List.getElem?_eq_some_iff.mp hx
    obtain ⟨hk, rfl⟩ := List.getElem?_eq_some_iff.mp hy
    exact Bool.false_ne_true ((hchain k hk).symm.trans hlt)
  · intro hnone k hk
    by_contra hlt
    exact hnone k ⟨_, _, List.getElem?_eq_getElem (Nat.lt_of_succ_lt hk),
      List.getElem?_eq_getElem hk, eq_true_of_ne_false hlt⟩

theorem dropsAt_take {n : Nat} : DropsAt pred (l.take n) k ↔ k + 1 < n ∧ DropsAt pred l k := by
  constructor
  · rintro ⟨x, y, hx, hy, htest⟩
    have hlt := (List.getElem?_eq_some_iff.mp hy).1
    rw [List.length_take] at hlt
    rw [List.getElem?_take_of_lt (by omega)] at hx hy
    exact ⟨by omega, x, y, hx, hy, htest⟩
  · rintro ⟨hlt, x, y, hx, hy, htest⟩
    refine ⟨x, y, ?_, ?_, htest⟩
    · rwa [List.getElem?_take_of_lt (by omega)]
    · rwa [List.getElem?_take_of_lt hlt]

end EARanges.Support
