import EARanges.Algorithm.SetAlgorithm
import EARanges.Support.SortedMerge

/-!
# The set algorithms on sorted ranges

With both ranges sorted, the output of a set algorithm is sorted and determined class by
class: of `m` equivalent elements of the first range and `n` of the second, `set_union`
writes the first `m` and then the last `n - m` of the second, `set_intersection` the first
`min m n` of the first, `set_difference` the last `m - n` of the first, and
`set_symmetric_difference` the last `m - n` of the first or the last `n - m` of the second.
`includes` compares `n` with `m` in every class.
-/
namespace EARanges.Algorithm.SetOperands
open EARanges.Support EARanges.Support.MergePolicy

variable {α β γ κ : Type}

/-- The equivalent elements of the first range. -/
def class1 (o : SetOperands α β κ) (c : κ) : List α := members o.pred o.proj1 c o.rng1

def class2 (o : SetOperands α β κ) (c : κ) : List β := members o.pred o.proj2 c o.rng2

/-- The key of an element that comes from either range. -/
def key (o : SetOperands α β κ) : α ⊕ β → κ := Sum.elim o.proj1 o.proj2

/-- What the algorithms require of their operands. -/
structure Ordered (o : SetOperands α β κ) : Prop where
  order : StrictWeakOrder o.pred
  rng1 : SortedBy o.pred o.proj1 o.rng1
  rng2 : SortedBy o.pred o.proj2 o.rng2

/-- `zs` is sorted by `key`, and has in every class what `content` takes of the members in
the ranges, that is `count` elements. -/
structure Merged (o : SetOperands α β κ) (key : γ → κ) (content : List α → List β → List γ)
    (count : Nat → Nat → Nat) (zs : List γ) : Prop where
  sorted : SortedBy o.pred key zs
  classes : ∀ c, members o.pred key c zs = content (o.class1 c) (o.class2 c)
  multiplicity : ∀ c,
    (members o.pred key c zs).length = count (o.class1 c).length (o.class2 c).length

theorem Merged.of_keyed {o : SetOperands α β κ} (h : Ordered o) {p : MergePolicy α β γ}
    {compare : α → β → Ordering} {key : γ → κ} {content : List α → List β → List γ}
    {count : Nat → Nat → Nat} (hkeyed : Keyed p compare o.pred o.proj1 o.proj2 key)
    (hcontent : ∀ as bs, paired p as bs = content as bs)
    (hcount : ∀ as bs, (content as bs).length = count as.length bs.length) {zs : List γ}
    (hzs : Emits (turn p compare o.rng1 o.rng2) (0, 0) zs) : Merged o key content count zs := by
  have hclasses : ∀ c, members o.pred key c zs = content (o.class1 c) (o.class2 c) := by
    intro c
    rw [hkeyed.classes h.rng1 h.rng2 c hzs, hcontent]
    rfl
  refine ⟨hkeyed.sorted h.rng1 h.rng2 hzs, hclasses, fun c => ?_⟩
  rw [hclasses, hcount]

/-! ## The policies keep the keys -/

section
variable {o : SetOperands α β κ}

theorem pred_of_compare_lt {x : α} {y : β} (h : o.compare x y = .lt) :
    o.pred (o.proj1 x) (o.proj2 y) = true := by
  unfold compare at h
  split at h
  · assumption
  · split at h <;> cases h

theorem pred_of_compare_gt {x : α} {y : β} (h : o.compare x y = .gt) :
    o.pred (o.proj2 y) (o.proj1 x) = true := by
  unfold compare at h
  split at h
  · cases h
  · split at h
    · assumption
    · cases h

theorem pred_of_compare_eq {x : α} {y : β} (h : o.compare x y = .eq) :
    o.pred (o.proj1 x) (o.proj2 y) = false ∧ o.pred (o.proj2 y) (o.proj1 x) = false := by
  unfold compare at h
  split at h
  · cases h
  · split at h
    · cases h
    · next hlt hgt => exact ⟨by simpa using hlt, by simpa using hgt⟩

/-- Under a strict weak order the sequence of the two tests does not matter. -/
theorem compareUnion_eq_compare (horder : StrictWeakOrder o.pred) (x : α) (y : β) :
    o.compareUnion x y = o.compare x y := by
  by_cases hlt : o.pred (o.proj1 x) (o.proj2 y) = true
  · have hgt : ¬ o.pred (o.proj2 y) (o.proj1 x) = true := by
      rw [horder.asymm hlt]
      exact Bool.false_ne_true
    rw [compareUnion_lt hgt hlt, compare_lt hlt]
  · by_cases hgt : o.pred (o.proj2 y) (o.proj1 x) = true
    · rw [compareUnion_gt hgt, compare_gt hlt hgt]
    · rw [compareUnion_eq hgt hlt, compare_eq hlt hgt]

/-- A policy that treats a rest like a smaller head, and keeps the keys. -/
theorem keyed_compare (horder : StrictWeakOrder o.pred) {p : MergePolicy α β γ} {key : γ → κ}
    (hrest1 : p.rest1 = p.less) (hrest2 : p.rest2 = p.greater)
    (hless : ∀ f, p.less = some f → ∀ x, key (f x) = o.proj1 x)
    (hgreater : ∀ f, p.greater = some f → ∀ y, key (f y) = o.proj2 y)
    (hequal : ∀ f, p.equal = some f → ∀ x, key (f x) = o.proj1 x) :
    Keyed p o.compare o.pred o.proj1 o.proj2 key where
  order := horder
  lt := pred_of_compare_lt
  gt := pred_of_compare_gt
  eq := pred_of_compare_eq
  rest1 := hrest1
  rest2 := hrest2
  key_less := hless
  key_greater := hgreater
  key_equal := hequal

theorem keyed_union (horder : StrictWeakOrder o.pred) :
    Keyed (unionPolicy .inl .inr) o.compareUnion o.pred o.proj1 o.proj2 o.key := by
  have hcompare : o.compareUnion = o.compare :=
    funext fun x => funext fun y => compareUnion_eq_compare horder x y
  rw [hcompare]
  apply keyed_compare horder rfl rfl
  all_goals
    intro f hf
    cases hf
    exact fun _ => rfl

theorem keyed_intersection (horder : StrictWeakOrder o.pred) :
    Keyed intersectionPolicy o.compare o.pred o.proj1 o.proj2 o.proj1 := by
  apply keyed_compare horder rfl rfl
  all_goals
    intro f hf
    cases hf
  exact fun _ => rfl

theorem keyed_difference (horder : StrictWeakOrder o.pred) :
    Keyed differencePolicy o.compare o.pred o.proj1 o.proj2 o.proj1 := by
  apply keyed_compare horder rfl rfl
  all_goals
    intro f hf
    cases hf
  exact fun _ => rfl

theorem keyed_symmetric (horder : StrictWeakOrder o.pred) :
    Keyed (symmetricPolicy .inl .inr) o.compare o.pred o.proj1 o.proj2 o.key := by
  apply keyed_compare horder rfl rfl
  all_goals
    intro f hf
    cases hf
  · exact fun _ => rfl
  · exact fun _ => rfl

end

/-! ## What each algorithm takes of a class -/

def unionContent (as : List α) (bs : List β) : List (α ⊕ β) :=
  as.map .inl ++ (bs.drop as.length).map .inr

def intersectionContent (as : List α) (bs : List β) : List α := as.take bs.length

def differenceContent (as : List α) (bs : List β) : List α := as.drop bs.length

def symmetricContent (as : List α) (bs : List β) : List (α ⊕ β) :=
  (as.drop bs.length).map .inl ++ (bs.drop as.length).map .inr

theorem paired_union (as : List α) (bs : List β) :
    paired (unionPolicy .inl .inr) as bs = unionContent as bs := by
  rw [paired, unionContent, ← List.append_assoc]
  congr 1
  change (as.take bs.length).map Sum.inl ++ (as.drop bs.length).map Sum.inl = as.map Sum.inl
  rw [← List.map_append, List.take_append_drop]

theorem paired_intersection (as : List α) (bs : List β) :
    paired intersectionPolicy as bs = intersectionContent as bs := by
  change (as.take bs.length).map id ++ ([] ++ []) = as.take bs.length
  rw [List.map_id, List.nil_append, List.append_nil]

theorem paired_difference (as : List α) (bs : List β) :
    paired differencePolicy as bs = differenceContent as bs := by
  change [] ++ ((as.drop bs.length).map id ++ []) = as.drop bs.length
  rw [List.map_id, List.append_nil, List.nil_append]

theorem length_unionContent (as : List α) (bs : List β) :
    (unionContent as bs).length = max as.length bs.length := by
  rw [unionContent, List.length_append, List.length_map, List.length_map, List.length_drop]
  omega

theorem length_symmetricContent (as : List α) (bs : List β) :
    (symmetricContent as bs).length = ((as.length : Int) - bs.length).natAbs := by
  rw [symmetricContent, List.length_append, List.length_map, List.length_map, List.length_drop,
    List.length_drop]
  omega

/-! ## Conversion of the output -/

theorem returns_union (o : SetOperands α β κ) (common1 : α → γ) (common2 : β → γ)
    {zs : List (α ⊕ β)}
    (hzs : Emits (turn (unionPolicy .inl .inr) o.compareUnion o.rng1 o.rng2) (0, 0) zs) :
    Returns (fun fuel => setUnion o common1 common2 fuel 0 0 [])
      (o.end1, o.end2, zs.map (Sum.elim common1 common2)) :=
  (setUnion_writes o common1 common2).returns (hzs.map (turn_map (Sum.elim common1 common2)))

theorem returns_symmetric (o : SetOperands α β κ) (common1 : α → γ) (common2 : β → γ)
    {zs : List (α ⊕ β)}
    (hzs : Emits (turn (symmetricPolicy .inl .inr) o.compare o.rng1 o.rng2) (0, 0) zs) :
    Returns (fun fuel => setSymmetricDifference o common1 common2 fuel 0 0 [])
      (o.end1, o.end2, zs.map (Sum.elim common1 common2)) :=
  (setSymmetricDifference_writes o common1 common2).returns
    (hzs.map (turn_map (Sum.elim common1 common2)))

/-! ## `includes` -/

/-- No class has more members from `j` on in the second range than from `i` on in the
first. -/
def IncludedFrom (o : SetOperands α β κ) (i j : Nat) : Prop :=
  ∀ c, (members o.pred o.proj2 c (o.rng2.drop j)).length ≤
    (members o.pred o.proj1 c (o.rng1.drop i)).length

section
variable {o : SetOperands α β κ} (h : Ordered o)
include h

/-- The head of the second range has its own class there. -/
theorem not_includedFrom_of_above {i j : Nat} (hj : j < o.rng2.length)
    (habove : ∀ x ∈ o.rng1.drop i, o.pred (o.proj2 o.rng2[j]) (o.proj1 x) = true) :
    ¬ o.IncludedFrom i j := by
  intro hincluded
  have hself := sameClass_self h.order (o.proj2 o.rng2[j])
  have hle := hincluded (o.proj2 o.rng2[j])
  rw [members_eq_nil h.order hself habove, List.drop_eq_getElem_cons hj,
    members_cons_of_mem hself] at hle
  exact absurd hle (Nat.not_succ_le_zero _)

theorem includedFrom_equal {i j : Nat} (hi : i < o.rng1.length) (hj : j < o.rng2.length)
    (hlt : o.pred (o.proj1 o.rng1[i]) (o.proj2 o.rng2[j]) = false)
    (hgt : o.pred (o.proj2 o.rng2[j]) (o.proj1 o.rng1[i]) = false) :
    o.IncludedFrom i j ↔ o.IncludedFrom (i + 1) (j + 1) := by
  refine forall_congr' fun c => ?_
  have hboth := sameClass_congr h.order hlt hgt c
  rw [List.drop_eq_getElem_cons hi, List.drop_eq_getElem_cons hj]
  by_cases hc : sameClass o.pred c (o.proj1 o.rng1[i]) = true
  · rw [members_cons_of_mem hc, members_cons_of_mem (hboth ▸ hc), List.length_cons,
      List.length_cons, Nat.add_le_add_iff_right]
  · rw [members_cons_of_not_mem hc, members_cons_of_not_mem (hboth ▸ hc)]

theorem includedFrom_less {i j : Nat} (hi : i < o.rng1.length) (hj : j < o.rng2.length)
    (hlt : o.pred (o.proj1 o.rng1[i]) (o.proj2 o.rng2[j]) = true) :
    o.IncludedFrom i j ↔ o.IncludedFrom (i + 1) j := by
  refine forall_congr' fun c => ?_
  rw [List.drop_eq_getElem_cons hi]
  by_cases hc : sameClass o.pred c (o.proj1 o.rng1[i]) = true
  · have hnone : members o.pred o.proj2 c (o.rng2.drop j) = [] := by
      refine members_eq_nil h.order hc fun y hy => ?_
      rw [List.drop_eq_getElem_cons hj] at hy
      rcases List.mem_cons.mp hy with rfl | hy
      · exact hlt
      · exact h.order.lt_of_lt_of_not_lt hlt (sortedBy_drop h.rng2 hj y hy)
    rw [hnone, List.length_nil]
    simp only [Nat.zero_le]
  · rw [members_cons_of_not_mem hc]

theorem includes_from (fuel : Nat) {i j : Nat} (hi : i ≤ o.rng1.length) (hj : j ≤ o.rng2.length)
    (hfuel : o.rng1.length - i < fuel) :
    ∃ b, includes o fuel i j = .ok b ∧ (b = true ↔ o.IncludedFrom i j) := by
  induction fuel generalizing i j with
  | zero => omega
  | succ fuel ih =>
    rw [includes]
    by_cases hend2 : j = o.end2
    · refine ⟨true, if_pos hend2, iff_of_true rfl fun c => ?_⟩
      rw [List.drop_of_length_le (Nat.le_of_eq hend2.symm)]
      exact Nat.zero_le _
    rw [if_neg hend2]
    have hj' : j < o.rng2.length := Nat.lt_of_le_of_ne hj hend2
    by_cases hend1 : i = o.end1
    · refine ⟨false, if_pos hend1, iff_of_false Bool.false_ne_true ?_⟩
      apply not_includedFrom_of_above h hj'
      rw [List.drop_of_length_le (Nat.le_of_eq hend1.symm)]
      exact nofun
    rw [if_neg hend1]
    have hi' : i < o.rng1.length := Nat.lt_of_le_of_ne hi hend1
    rw [deref_eq hi', exec_bind_ok, deref_eq hj', exec_bind_ok]
    by_cases hgt : o.pred (o.proj2 o.rng2[j]) (o.proj1 o.rng1[i]) = true
    · refine ⟨false, if_pos hgt, iff_of_false Bool.false_ne_true ?_⟩
      refine not_includedFrom_of_above h hj' fun x hx => ?_
      rw [List.drop_eq_getElem_cons hi'] at hx
      rcases List.mem_cons.mp hx with rfl | hx
      · exact hgt
      · exact h.order.lt_of_lt_of_not_lt hgt (sortedBy_drop h.rng1 hi' x hx)
    rw [if_neg hgt]
    by_cases hlt : o.pred (o.proj1 o.rng1[i]) (o.proj2 o.rng2[j]) = true
    · obtain ⟨b, hrun, hb⟩ := ih (i := i + 1) (j := j) hi' hj (by omega)
      rw [if_neg (not_not_intro hlt)]
      exact ⟨b, hrun, hb.trans (includedFrom_less h hi' hj' hlt).symm⟩
    · obtain ⟨b, hrun, hb⟩ := ih (i := i + 1) (j := j + 1) hi' hj' (by omega)
      rw [if_pos hlt]
      have hequal := includedFrom_equal h hi' hj' (by simpa using hlt) (by simpa using hgt)
      exact ⟨b, hrun, hb.trans hequal.symm⟩

theorem includes_decides :
    Decides (fun fuel => includes o fuel 0 0)
      (∀ c, (o.class2 c).length ≤ (o.class1 c).length) := by
  obtain ⟨b, hrun, hb⟩ := includes_from h (o.rng1.length + 1) (Nat.zero_le _)
    (Nat.zero_le _) (Nat.lt_succ_self _)
  refine ⟨b, ⟨o.rng1.length + 1, fun fuel hfuel => ?_⟩, hb⟩
  obtain ⟨b', hrun', hb'⟩ := includes_from h fuel (Nat.zero_le _) (Nat.zero_le _) hfuel
  have hsame : b' = b := by
    rw [Bool.eq_iff_iff, hb', hb]
  exact hsame ▸ hrun'

end

/-! ## The contract -/

/-- Two sorted ranges of numbers with duplicates on both sides. -/
def duplicates : SetOperands Nat Nat Nat where
  rng1 := [1, 2, 2, 5]
  rng2 := [2, 3, 3]
  pred a b := decide (a < b)
  proj1 := id
  proj2 := id

theorem duplicates_ordered : Ordered duplicates where
  order := .of_linearOrder Nat
  rng1 := by decide
  rng2 := by decide

end EARanges.Algorithm.SetOperands
