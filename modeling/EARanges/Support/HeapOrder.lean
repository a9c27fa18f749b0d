import EARanges.Support.InPlace
import EARanges.Support.StableOrder

/-!
# Heap order on a list

The children of position `p` are `2 * p + 1` and `2 * p + 2`. In a heap no element is less
than its children, hence the root is not less than any element. Sinking an element keeps
`HeapBut`: the list is a heap but for the element that is sinking. An element that rises
keeps `HeapUnder`, where only that element may exceed its parent.
-/
namespace EARanges.Support

variable {γ : Type}

def IsChild (p c : Nat) : Prop := c = 2 * p + 1 ∨ c = 2 * p + 2

theorem IsChild.lt {p c : Nat} (h : IsChild p c) : p < c := by
  obtain rfl | rfl := h <;> omega

theorem IsChild.unique {p p' c : Nat} (h : IsChild p c) (h' : IsChild p' c) : p = p' := by
  obtain rfl | rfl := h <;> obtain h' | h' := h' <;> omega

theorem exists_parent {c : Nat} (h : 0 < c) : IsChild ((c - 1) / 2) c := by
  unfold IsChild
  omega

/-- From `s` on no element is less than its children. -/
def HeapFrom (lt : γ → γ → Bool) (s : Nat) (l : List γ) : Prop :=
  ∀ p c x y, s ≤ p → IsChild p c → l[p]? = some x → l[c]? = some y → lt x y = false

/-- A heap from `s` on, but for the element at `hole`, which its children may exceed. -/
structure HeapBut (lt : γ → γ → Bool) (s hole : Nat) (l : List γ) : Prop where
  elsewhere : ∀ p c x y, s ≤ p → p ≠ hole → IsChild p c → l[p]? = some x → l[c]? = some y →
    lt x y = false
  above : ∀ p c x y, s ≤ p → IsChild p hole → IsChild hole c → l[p]? = some x → l[c]? = some y →
    lt x y = false

/-- With another root, and shortened at the end, a heap is one but for the root. -/
theorem HeapFrom.replace_root {lt : γ → γ → Bool} {x : γ} {m q : List γ}
    (h : HeapFrom lt 0 (x :: (m ++ q))) (y : γ) : HeapFrom lt (0 + 1) (y :: m) := by
  have hagree (i : Nat) (z : γ) (hi : 0 + 1 ≤ i) (hz : (y :: m)[i]? = some z) :
      (x :: (m ++ q))[i]? = some z := by
    obtain ⟨i, rfl⟩ := Nat.exists_eq_add_of_le' hi
    rw [List.getElem?_cons_succ] at hz ⊢
    rw [List.getElem?_append_left (List.getElem?_eq_some_iff.mp hz).1, hz]
  intro p c u v hp hchild hu hv
  have := hchild.lt
  exact h p c u v (Nat.zero_le _) hchild (hagree p u hp hu) (hagree c v (by omega) hv)

/-- Nothing has a child in the second half. -/
theorem heapFrom_half (lt : γ → γ → Bool) {s : Nat} {l : List γ} (h : l.length ≤ 2 * s + 1) :
    HeapFrom lt s l := by
  intro p c x y hp hchild _ hy
  have hc := (List.getElem?_eq_some_iff.mp hy).1
  obtain rfl | rfl := hchild <;> omega

/-- The root is not less than any element. -/
theorem HeapFrom.root {lt : γ → γ → Bool} (h : StrictWeakOrder lt) {x : γ} {l : List γ}
    (hheap : HeapFrom lt 0 (x :: l)) : ∀ y ∈ x :: l, lt x y = false := by
  have hindex (i : Nat) : ∀ y, (x :: l)[i]? = some y → lt x y = false := by
    induction i using Nat.strongRecOn with
    | _ i ih =>
      intro y hy
      by_cases hi : i = 0
      · subst hi
        rw [List.getElem?_cons_zero, Option.some.injEq] at hy
        rw [hy]
        exact h.not_self y
      · have hlen := (List.getElem?_eq_some_iff.mp hy).1
        have hchild := exists_parent (Nat.pos_of_ne_zero hi)
        have hparent : (i - 1) / 2 < (x :: l).length := by omega
        have hz := List.getElem?_eq_getElem hparent
        have hxz := ih ((i - 1) / 2) (by omega) _ hz
        exact h.not_lt_trans (hheap _ i _ y (Nat.zero_le _) hchild hz hy) hxz
  intro y hy
  obtain ⟨i, hi⟩ := List.mem_iff_getElem?.mp hy
  exact hindex i y hi

theorem HeapBut.of_heapFrom {lt : γ → γ → Bool} {s : Nat} {l : List γ}
    (h : HeapFrom lt (s + 1) l) : HeapBut lt s s l where
  elsewhere p c x y hp hne := h p c x y (by omega)
  above p c x y hp hchild := by
    have := hchild.lt
    omega

theorem HeapBut.heapFrom {lt : γ → γ → Bool} {s hole : Nat} {l : List γ}
    (h : HeapBut lt s hole l)
    (hle : ∀ c x y, IsChild hole c → l[hole]? = some x → l[c]? = some y → lt x y = false) :
    HeapFrom lt s l := by
  intro p c x y hp hchild hx hy
  by_cases hne : p = hole
  · subst hne
    exact hle c x y hchild hx hy
  · exact h.elsewhere p c x y hp hne hchild hx hy

/-- The element sinks by changing places with a child not less than the other one. -/
theorem HeapBut.swap {lt : γ → γ → Bool} {s hole child : Nat} {l : List γ} {x y : γ}
    (h : HeapBut lt s hole l) (hs : s ≤ hole) (hchild : IsChild hole child)
    (hx : l[hole]? = some x) (hy : l[child]? = some y)
    (hmax : ∀ c z, IsChild hole c → l[c]? = some z → lt y z = false) (hyx : lt y x = false) :
    HeapBut lt s child ((l.set hole y).set child x) := by
  have hlt := hchild.lt
  have hlen := (List.getElem?_eq_some_iff.mp hy).1
  have hat_child := getElem?_swap_right (i := hole) hlen x y
  have hat_hole := getElem?_swap_left hlt hlen x y
  refine ⟨fun p c u v hp hne hpc hu hv => ?_, fun p c u v hp hpc hcc hu hv => ?_⟩
  · by_cases hph : p = hole
    · -- the child that moved up over the old element and over its sibling
      subst hph
      rw [hat_hole, Option.some.injEq] at hu
      by_cases hcc : c = child
      · subst hcc
        rw [hat_child, Option.some.injEq] at hv
        rw [← hu, ← hv]
        exact hyx
      · have := hpc.lt
        rw [getElem?_swap_ne (by omega) hcc] at hv
        rw [← hu]
        exact hmax c v hpc hv
    · rw [getElem?_swap_ne hph hne] at hu
      by_cases hch : c = hole
      · subst hch
        rw [hat_hole, Option.some.injEq] at hv
        rw [← hv]
        exact h.above p child u y hp hpc hchild hu hy
      · have hcc : c ≠ child := fun heq => hph (hpc.unique (heq ▸ hchild))
        rw [getElem?_swap_ne hch hcc] at hv
        exact h.elsewhere p c u v hp hph hpc hu hv
  · obtain rfl := hpc.unique hchild
    have := hcc.lt
    rw [hat_hole, Option.some.injEq] at hu
    rw [getElem?_swap_ne (by omega) (by omega)] at hv
    rw [← hu]
    exact h.elsewhere child c y v (by omega) (by omega) hcc hy hv

/-! ## Rising -/

/-- A heap but for the element at `hole`, which may exceed its parent. -/
structure HeapUnder (lt : γ → γ → Bool) (hole : Nat) (l : List γ) : Prop where
  elsewhere : ∀ p c x y, c ≠ hole → IsChild p c → l[p]? = some x → l[c]? = some y → lt x y = false
  above : ∀ p c x y, IsChild p hole → IsChild hole c → l[p]? = some x → l[c]? = some y →
    lt x y = false

/-- An element behind a heap. -/
theorem HeapUnder.of_append {lt : γ → γ → Bool} {l : List γ} (h : HeapFrom lt 0 l) (z : γ) :
    HeapUnder lt l.length (l ++ [z]) where
  elsewhere p c x y hne hchild hx hy := by
    have hlt := hchild.lt
    have hc := (List.getElem?_eq_some_iff.mp hy).1
    rw [List.length_append, List.length_singleton] at hc
    rw [List.getElem?_append_left (by omega)] at hx hy
    exact h p c x y (Nat.zero_le p) hchild hx hy
  above p c x y _ hchild _ hy := by
    have hlt := hchild.lt
    have hc := (List.getElem?_eq_some_iff.mp hy).1
    rw [List.length_append, List.length_singleton] at hc
    omega

theorem HeapUnder.heapFrom {lt : γ → γ → Bool} {hole : Nat} {l : List γ} (h : HeapUnder lt hole l)
    (hle : ∀ p x y, IsChild p hole → l[p]? = some x → l[hole]? = some y → lt x y = false) :
    HeapFrom lt 0 l := by
  intro p c x y _ hchild hx hy
  by_cases hne : c = hole
  · subst hne
    exact hle p x y hchild hx hy
  · exact h.elsewhere p c x y hne hchild hx hy

/-- The element rises by changing places with its parent. -/
theorem HeapUnder.swap {lt : γ → γ → Bool} (hlt : StrictWeakOrder lt) {p hole : Nat} {l : List γ}
    {x v : γ} (h : HeapUnder lt hole l) (hchild : IsChild p hole) (hx : l[p]? = some x)
    (hv : l[hole]? = some v) (hxv : lt x v = true) :
    HeapUnder lt p ((l.set hole x).set p v) := by
  have hp := hchild.lt
  have hlen := (List.getElem?_eq_some_iff.mp hv).1
  have hcomm : (l.set hole x).set p v = (l.set p v).set hole x := List.set_comm _ _ (by omega)
  have hat_hole := getElem?_swap_right (i := p) hlen x v
  have hat_p := getElem?_swap_left hp hlen x v
  rw [hcomm]
  -- the other children of the parent do not exceed it, hence not what rose over it
  have hbelow (c : Nat) (y : γ) (hne : c ≠ hole) (hc : IsChild p c) (hy : l[c]? = some y) :
      lt x y = false := h.elsewhere p c x y hne hc hx hy
  refine ⟨fun q c u w hne hqc hu hw => ?_, fun q c u w hqp hpc hu hw => ?_⟩
  · by_cases hch : c = hole
    · subst hch
      obtain rfl := hqc.unique hchild
      rw [hat_p, Option.some.injEq] at hu
      rw [hat_hole, Option.some.injEq] at hw
      rw [← hu, ← hw]
      exact hlt.asymm hxv
    · rw [getElem?_swap_ne hne hch] at hw
      by_cases hqp : q = p
      · subst hqp
        rw [hat_p, Option.some.injEq] at hu
        rw [← hu]
        exact hlt.not_lt_trans (hbelow c w hch hqc hw) (hlt.asymm hxv)
      · by_cases hqh : q = hole
        · subst hqh
          rw [hat_hole, Option.some.injEq] at hu
          rw [← hu]
          exact h.above p c x w hchild hqc hx hw
        · rw [getElem?_swap_ne hqp hqh] at hu
          exact h.elsewhere q c u w hch hqc hu hw
  · have hq := hqp.lt
    rw [getElem?_swap_ne (by omega) (by omega)] at hu
    have hux := h.elsewhere q p u x (by omega) hqp hu hx
    by_cases hch : c = hole
    · subst hch
      rw [hat_hole, Option.some.injEq] at hw
      rw [← hw]
      exact hux
    · have hc := hpc.lt
      rw [getElem?_swap_ne (by omega) hch] at hw
      exact hlt.not_lt_trans (hbelow c w hch hpc hw) hux

/-! ## Prefixes -/

/-- No position before `n` exceeds its parent. -/
def HeapUpTo (lt : γ → γ → Bool) (n : Nat) (l : List γ) : Prop :=
  ∀ p c x y, c < n → IsChild p c → l[p]? = some x → l[c]? = some y → lt x y = false

theorem heapFrom_take_iff {lt : γ → γ → Bool} {l : List γ} {n : Nat} :
    HeapFrom lt 0 (l.take n) ↔ HeapUpTo lt n l := by
  constructor
  · intro h p c x y hc hchild hx hy
    have hlt := hchild.lt
    exact h p c x y (Nat.zero_le p) hchild (by rwa [List.getElem?_take_of_lt (by omega)])
      (by rwa [List.getElem?_take_of_lt hc])
  · intro h p c x y _ hchild hx hy
    have hc := (List.getElem?_eq_some_iff.mp hy).1
    have hlt := hchild.lt
    rw [List.length_take] at hc
    rw [List.getElem?_take_of_lt (by omega)] at hx hy
    exact h p c x y (by omega) hchild hx hy

theorem HeapUpTo.succ {lt : γ → γ → Bool} {l : List γ} {p c : Nat} {x y : γ}
    (h : HeapUpTo lt c l) (hchild : IsChild p c) (hx : l[p]? = some x) (hy : l[c]? = some y)
    (hxy : lt x y = false) : HeapUpTo lt (c + 1) l := by
  intro p' c' u v hc hchild' hu hv
  by_cases heq : c' = c
  · subst heq
    obtain rfl := hchild'.unique hchild
    rw [← eq_of_read hu hx, ← eq_of_read hv hy]
    exact hxy
  · exact h p' c' u v (by omega) hchild' hu hv

end EARanges.Support
