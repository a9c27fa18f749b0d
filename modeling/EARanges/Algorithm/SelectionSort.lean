import EARanges.Support.Selection

/-!
# `sort3` and `selection_sort`

algorithm/nth_element.hpp, and algorithm/min_element.hpp with the `min_element` it calls.
-/
namespace EARanges.Algorithm
open EARanges.Support

variable {α κ : Type}

section
variable (pred : κ → κ → Bool) (proj : α → κ)

/-- The order of the elements at `a` and `b`. -/
def lessAt (l : List α) (a b : Nat) : Exec Bool := do
  let x ← deref l a
  let y ← deref l b
  .ok (pred (proj x) (proj y))

/-- `sort3`, which returns the number of swaps. -/
def sort3 (l : List α) (x y z : Nat) : Exec (List α × Nat) := do
  if ¬ (← lessAt pred proj l y x) then
    if ¬ (← lessAt pred proj l z y) then .ok (l, 0)
    else
      let l ← iterSwap l y z
      if ← lessAt pred proj l y x then
        let l ← iterSwap l x y
        .ok (l, 2)
      else .ok (l, 1)
  else if ← lessAt pred proj l z y then
    let l ← iterSwap l x z
    .ok (l, 1)
  else
    let l ← iterSwap l x y
    if ← lessAt pred proj l z y then
      let l ← iterSwap l y z
      .ok (l, 2)
    else .ok (l, 1)

/-- `while(++first != last)`. -/
def minElementLoop (l : List α) : Nat → Nat → Nat → Exec Nat
  | 0, _, _ => .error .fuel
  | fuel + 1, first, currentMin => do
    let first ← incr l first
    if first = l.length then .ok currentMin
    else if ← lessAt pred proj l first currentMin then minElementLoop l fuel first first
    else minElementLoop l fuel first currentMin

/-- `min_element` of `[first, last)`. -/
def minElement (l : List α) (first : Nat) : Exec Nat :=
  if first ≠ l.length then minElementLoop pred proj l (l.length + 1) first first else .ok first

def selectionSortLoop : Nat → List α → Nat → Exec (List α)
  | 0, _, _ => .error .fuel
  | fuel + 1, l, first =>
    if first = l.length - 1 then .ok l
    else do
      let i ← minElement pred proj l first
      if i ≠ first then
        let l ← iterSwap l first i
        selectionSortLoop fuel l (first + 1)
      else selectionSortLoop fuel l (first + 1)

/-- `selection_sort`, which expects an element. -/
def selectionSort (l : List α) : Exec (List α) :=
  if l.length = 0 then .error .fault
  else selectionSortLoop pred proj (l.length + 1) l 0

end

variable {pred : κ → κ → Bool} {proj : α → κ}

theorem lessAt_eq {l : List α} {a b : Nat} {x y : α} (hx : l[a]? = some x) (hy : l[b]? = some y) :
    lessAt pred proj l a b = .ok (projected pred proj x y) := by
  rw [lessAt, deref_of_some hx, exec_bind_ok, deref_of_some hy, exec_bind_ok]
  rfl

/-- The three elements are in order, and only they have moved. -/
theorem sort3_spec (h : StrictWeakOrder pred) (proj : α → κ) {l : List α} {x y z first last : Nat}
    (hfirst : first ≤ x) (hxy : x < y) (hyz : y < z) (hlast : z < last) (hlength : z < l.length) :
    ∃ r n a b c, sort3 pred proj l x y z = .ok (r, n) ∧ Within first last l r ∧
      r[x]? = some a ∧ r[y]? = some b ∧ r[z]? = some c ∧
      projected pred proj b a = false ∧ projected pred proj c b = false := by
  have hproj := h.projected proj
  have hx : first ≤ x ∧ x < last := by omega
  have hy : first ≤ y ∧ y < last := by omega
  have hz : first ≤ z ∧ z < last := by omega
  obtain ⟨a, ha⟩ : ∃ a, l[x]? = some a := ⟨_, List.getElem?_eq_getElem (by omega)⟩
  obtain ⟨b, hb⟩ : ∃ b, l[y]? = some b := ⟨_, List.getElem?_eq_getElem (by omega)⟩
  obtain ⟨c, hc⟩ : ∃ c, l[z]? = some c := ⟨_, List.getElem?_eq_getElem hlength⟩
  rw [sort3, lessAt_eq hb ha, exec_bind_ok]
  cases hba : projected pred proj b a with
  | false =>
    rw [if_pos (by simp), lessAt_eq hc hb, exec_bind_ok]
    cases hcb : projected pred proj c b with
    | false =>
      rw [if_pos (by simp)]
      exact ⟨l, 0, a, b, c, rfl, .refl _ _ _, ha, hb, hc, hba, hcb⟩
    | true =>
      obtain ⟨l₁, hswap, hwithin, hb₁, hc₁, hrest⟩ := iterSwap_within hb hc (by omega) hy hz
      have ha₁ := (hrest x (by omega) (by omega)).trans ha
      rw [if_neg (by simp), hswap, exec_bind_ok, lessAt_eq hb₁ ha₁, exec_bind_ok]
      cases hca : projected pred proj c a with
      | false =>
        rw [if_neg (by simp)]
        exact ⟨l₁, 1, a, c, b, rfl, hwithin, ha₁, hb₁, hc₁, hca, hproj.asymm hcb⟩
      | true =>
        obtain ⟨l₂, hswap₂, hwithin₂, ha₂, hb₂, hrest₂⟩ :=
          iterSwap_within ha₁ hb₁ (by omega) hx hy
        have hc₂ := (hrest₂ z (by omega) (by omega)).trans hc₁
        rw [if_pos rfl, hswap₂, exec_bind_ok]
        exact ⟨l₂, 2, c, a, b, rfl, hwithin.trans hwithin₂, ha₂, hb₂, hc₂, hproj.asymm hca, hba⟩
  | true =>
    rw [if_neg (by simp), lessAt_eq hc hb, exec_bind_ok]
    cases hcb : projected pred proj c b with
    | true =>
      obtain ⟨l₁, hswap, hwithin, ha₁, hc₁, hrest⟩ := iterSwap_within ha hc (by omega) hx hz
      have hb₁ := (hrest y (by omega) (by omega)).trans hb
      rw [if_pos rfl, hswap, exec_bind_ok]
      exact ⟨l₁, 1, c, b, a, rfl, hwithin, ha₁, hb₁, hc₁, hproj.asymm hcb, hproj.asymm hba⟩
    | false =>
      obtain ⟨l₁, hswap, hwithin, ha₁, hb₁, hrest⟩ := iterSwap_within ha hb (by omega) hx hy
      have hc₁ := (hrest z (by omega) (by omega)).trans hc
      rw [if_neg (by simp), hswap, exec_bind_ok, lessAt_eq hc₁ hb₁, exec_bind_ok]
      cases hca : projected pred proj c a with
      | false =>
        rw [if_neg (by simp)]
        exact ⟨l₁, 1, b, a, c, rfl, hwithin, ha₁, hb₁, hc₁, hproj.asymm hba, hca⟩
      | true =>
        obtain ⟨l₂, hswap₂, hwithin₂, hb₂, hc₂, hrest₂⟩ :=
          iterSwap_within hb₁ hc₁ (by omega) hy hz
        have ha₂ := (hrest₂ x (by omega) (by omega)).trans ha₁
        rw [if_pos rfl, hswap₂, exec_bind_ok]
        exact ⟨l₂, 2, b, c, a, rfl, hwithin.trans hwithin₂, ha₂, hb₂, hc₂, hcb, hproj.asymm hca⟩

/-! ## Selection sort -/

/-- `currentMin` is least among what the loop has passed. -/
theorem minElementLoop_spec (h : StrictWeakOrder pred) {l : List α} (fuel : Nat)
    {start first currentMin : Nat} {m : α} (hfirst : first < l.length)
    (hfuel : l.length < fuel + first) (hmin : l[currentMin]? = some m)
    (hrange : start ≤ currentMin ∧ currentMin ≤ first)
    (hleast : ∀ k x, start ≤ k → k ≤ first → l[k]? = some x → projected pred proj x m = false) :
    ∃ i w, minElementLoop pred proj l fuel first currentMin = .ok i ∧ start ≤ i ∧
      l[i]? = some w ∧ ∀ k x, start ≤ k → l[k]? = some x → projected pred proj x w = false := by
  have hproj := h.projected proj
  induction fuel generalizing first currentMin m with
  | zero => omega
  | succ fuel ih =>
    rw [minElementLoop, incr_ok hfirst, exec_bind_ok]
    by_cases hend : first + 1 = l.length
    · rw [if_pos hend]
      refine ⟨currentMin, m, rfl, hrange.1, hmin, fun k x hk hx => ?_⟩
      have hlen := (List.getElem?_eq_some_iff.mp hx).1
      exact hleast k x hk (by omega) hx
    · have hnext : first + 1 < l.length := by omega
      have hget := List.getElem?_eq_getElem hnext
      rw [if_neg hend, lessAt_eq hget hmin, exec_bind_ok]
      cases hlt : projected pred proj l[first + 1] m with
      | true =>
        rw [if_pos rfl]
        refine ih hnext (by omega) hget (by omega) fun k x hk hk' hx => ?_
        rcases Nat.lt_or_ge first k with hlast | hbefore
        · obtain rfl : k = first + 1 := by omega
          rw [hget, Option.some.injEq] at hx
          rw [← hx]
          exact hproj.not_self _
        · exact hproj.not_lt_trans (hproj.asymm hlt) (hleast k x hk hbefore hx)
      | false =>
        rw [if_neg (by simp)]
        refine ih hnext (by omega) hmin (by omega) fun k x hk hk' hx => ?_
        rcases Nat.lt_or_ge first k with hlast | hbefore
        · obtain rfl : k = first + 1 := by omega
          rw [hget, Option.some.injEq] at hx
          rw [← hx]
          exact hlt
        · exact hleast k x hk hbefore hx

theorem minElement_spec (h : StrictWeakOrder pred) (proj : α → κ) {l : List α} {first : Nat}
    (hfirst : first < l.length) :
    ∃ i w, minElement pred proj l first = .ok i ∧ first ≤ i ∧ l[i]? = some w ∧
      ∀ k x, first ≤ k → l[k]? = some x → projected pred proj x w = false := by
  have hget := List.getElem?_eq_getElem hfirst
  rw [minElement, if_pos (Nat.ne_of_lt hfirst)]
  refine minElementLoop_spec h (l.length + 1) hfirst (by omega) hget (by omega)
    fun k x hk hk' hx => ?_
  obtain rfl : k = first := by omega
  rw [hget, Option.some.injEq] at hx
  rw [← hx]
  exact (h.projected proj).not_self _

/-- The first `k` elements are in order, and none behind them is smaller. -/
def SelectedUpTo (lt : α → α → Bool) (l : List α) (k : Nat) : Prop :=
  ∀ a b x y, a < k → a < b → l[a]? = some x → l[b]? = some y → lt y x = false

theorem selectionSortLoop_spec (h : StrictWeakOrder pred) (proj : α → κ) (fuel : Nat) {l : List α}
    {first : Nat} (hfirst : first < l.length) (hfuel : l.length < fuel + first)
    (hselected : SelectedUpTo (projected pred proj) l first) :
    ∃ r, selectionSortLoop pred proj fuel l first = .ok r ∧ l.Perm r ∧
      SelectedUpTo (projected pred proj) r (l.length - 1) := by
  have hproj := h.projected proj
  induction fuel generalizing l first with
  | zero => omega
  | succ fuel ih =>
    rw [selectionSortLoop]
    by_cases hend : first = l.length - 1
    · rw [if_pos hend]
      exact ⟨l, rfl, .refl l, hend ▸ hselected⟩
    · obtain ⟨i, w, hrun, hi, hw, hleast⟩ := minElement_spec h proj hfirst
      rw [if_neg hend, hrun, exec_bind_ok]
      by_cases hne : i ≠ first
      · have hilen := (List.getElem?_eq_some_iff.mp hw).1
        have hget := List.getElem?_eq_getElem hfirst
        obtain ⟨l₁, hswap, hwithin, hw₁, hi₁, hrest⟩ := iterSwap_within hget hw hne.symm
          (show first ≤ first ∧ first < l.length by omega) (by omega)
        -- behind the front stands what stood there before
        have hbehind : ∀ b y, first ≤ b → l₁[b]? = some y → ∃ c, first ≤ c ∧ l[c]? = some y := by
          intro b y hb hy
          by_cases hbf : b = first
          · exact ⟨i, hi, by rw [hw, ← hw₁, ← hbf, hy]⟩
          · by_cases hbi : b = i
            · exact ⟨first, Nat.le_refl _, by rw [hget, ← hi₁, ← hbi, hy]⟩
            · exact ⟨b, hb, by rw [← hrest b hbf hbi, hy]⟩
        have hnext : SelectedUpTo (projected pred proj) l₁ (first + 1) := by
          intro a b x y ha hab hx hy
          by_cases haf : a = first
          · subst haf
            obtain ⟨c, hc, hyc⟩ := hbehind b y (Nat.le_of_lt hab) hy
            rw [hw₁, Option.some.injEq] at hx
            rw [← hx]
            exact hleast c y hc hyc
          · rw [hrest a haf (by omega)] at hx
            rcases Nat.lt_or_ge b first with hbf | hbf
            · rw [hrest b (by omega) (by omega)] at hy
              exact hselected a b x y (by omega) hab hx hy
            · obtain ⟨c, hc, hyc⟩ := hbehind b y hbf hy
              exact hselected a c x y (by omega) (by omega) hx hyc
        have hlen := hwithin.length_eq
        rw [if_pos hne, hswap, exec_bind_ok]
        obtain ⟨r, hrun', hperm, hr⟩ := ih (by omega) (by omega) hnext
        exact ⟨r, hrun', hwithin.perm.trans hperm, hlen ▸ hr⟩
      · have heq : i = first := not_not.mp hne
        have hnext : SelectedUpTo (projected pred proj) l (first + 1) := by
          intro a b x y ha hab hx hy
          by_cases haf : a = first
          · rw [haf, ← heq, hw, Option.some.injEq] at hx
            rw [← hx]
            exact hleast b y (by omega) hy
          · exact hselected a b x y (by omega) hab hx hy
        rw [if_neg hne]
        exact ih (by omega) (by omega) hnext

theorem selectionSort_spec (h : StrictWeakOrder pred) (proj : α → κ) {l : List α}
    (hl : 0 < l.length) :
    ∃ r, selectionSort pred proj l = .ok r ∧ l.Perm r ∧ Sorted (projected pred proj) r := by
  obtain ⟨r, hrun, hperm, hr⟩ := selectionSortLoop_spec h proj (l.length + 1) hl
    (by omega) fun a b x y ha => absurd ha (Nat.not_lt_zero a)
  have hlen := hperm.length_eq
  refine ⟨r, ?_, hperm, List.pairwise_iff_getElem.mpr fun a b ha hb hab => ?_⟩
  · rw [selectionSort, if_neg (by omega), hrun]
  · exact hr a b _ _ (by omega) hab (List.getElem?_eq_getElem ha) (List.getElem?_eq_getElem hb)

end EARanges.Algorithm
