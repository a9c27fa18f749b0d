import EARanges.Support.InPlace
import EARanges.Support.StableOrder
import Mathlib.Data.List.Sort

/-!
# Selection

What a sort puts at a position, without sorting: `Rank` counts the smaller elements. A
search for it narrows a range; `CanPlace` says that the range still suffices, whatever has
been done before, and narrowing keeps it where the cut-off parts are separated from the
rest (`canPlace_separated`).
-/
namespace EARanges.Support

variable {γ : Type} {lt : γ → γ → Bool}

/-- A sort of `l` puts `v`, or an equivalent element, at `n`. -/
structure Rank (lt : γ → γ → Bool) (l : List γ) (n : Nat) (v : γ) : Prop where
  below : l.countP (fun x => lt x v) ≤ n
  above : n < l.countP (fun x => !lt v x)

theorem Rank.perm {l m : List γ} {n : Nat} {v : γ} (h : Rank lt l n v) (hperm : l.Perm m) :
    Rank lt m n v := by
  refine ⟨?_, ?_⟩
  · rw [← hperm.countP_eq]
    exact h.below
  · rw [← hperm.countP_eq]
    exact h.above

/-- Not greater than a smaller element is smaller. -/
theorem countP_le_of_lt (h : StrictWeakOrder lt) {v w : γ} (hlt : lt v w = true) (l : List γ) :
    l.countP (fun x => !lt v x) ≤ l.countP (fun x => lt x w) := by
  refine List.countP_mono_left fun x _ hx => ?_
  exact h.lt_of_not_lt_of_lt (by simpa using hx) hlt

theorem Rank.not_lt (h : StrictWeakOrder lt) {l : List γ} {n : Nat} {v w : γ}
    (hv : Rank lt l n v) (hw : Rank lt l n w) : lt v w = false := by
  by_contra hlt
  have hle := countP_le_of_lt h (by simpa using hlt) l
  have hv := hv.above
  have hw := hw.below
  omega

theorem rank_of_split (h : StrictWeakOrder lt) {p q : List γ} {v : γ}
    (hp : ∀ x ∈ p, lt v x = false) (hq : ∀ x ∈ q, lt x v = false) :
    Rank lt (p ++ v :: q) p.length v := by
  have hnone : q.countP (fun x => lt x v) = 0 :=
    List.countP_eq_zero.mpr fun x hx => by simp [hq x hx]
  have hall : p.countP (fun x => !lt v x) = p.length :=
    List.countP_eq_length.mpr fun x hx => by simp [hp x hx]
  refine ⟨?_, ?_⟩
  · rw [List.countP_append, List.countP_cons, hnone, h.not_self]
    exact List.countP_le_length
  · rw [List.countP_append, List.countP_cons, hall, h.not_self, Bool.not_false, if_pos rfl]
    omega

/-- `s` consists of the least elements of `l`, in order. -/
structure Smallest (lt : γ → γ → Bool) (l s : List γ) : Prop where
  sorted : Sorted lt s
  least : ∃ rest, l.Perm (s ++ rest) ∧ NotAbove lt s rest

theorem Smallest.perm {l m s : List γ} (h : Smallest lt l s) (hperm : m.Perm l) :
    Smallest lt m s := by
  obtain ⟨rest, hrest, habove⟩ := h.least
  exact ⟨h.sorted, rest, hperm.trans hrest, habove⟩

theorem Smallest.rank (h : StrictWeakOrder lt) {l s : List γ} (hs : Smallest lt l s) {i : Nat}
    {v : γ} (hv : s[i]? = some v) : Rank lt l i v := by
  obtain ⟨rest, hperm, habove⟩ := hs.least
  obtain ⟨p, x, q, rfl, hp⟩ := exists_cut_at (List.getElem?_eq_some_iff.mp hv).1
  subst hp
  obtain rfl : x = v := by simpa using hv
  obtain ⟨-, hq, hpq⟩ := List.pairwise_append.mp hs.sorted
  have hrank := rank_of_split h (p := p) (q := q ++ rest) (v := x)
    (fun y hy => hpq y hy x (List.mem_cons_self ..)) fun y hy => by
      obtain hy | hy := List.mem_append.mp hy
      · exact (List.pairwise_cons.mp hq).1 y hy
      · exact habove x (by simp) y hy
  refine hrank.perm ?_
  rw [List.append_assoc, List.cons_append] at hperm
  exact hperm.symm

/-- What the least elements are is determined up to equivalence. -/
theorem Smallest.equivalent (h : StrictWeakOrder lt) {l s s' : List γ} (hs : Smallest lt l s)
    (hs' : Smallest lt l s') (hlen : s.length = s'.length) :
    List.Forall₂ (Equivalent lt) s s' := by
  refine List.forall₂_iff_get.mpr ⟨hlen, fun i hi hi' => ?_⟩
  have hv := hs.rank h (List.getElem?_eq_getElem hi)
  have hw := hs'.rank h (List.getElem?_eq_getElem hi')
  exact ⟨hv.not_lt h hw, hw.not_lt h hv⟩

/-! ## Stretches -/

def stretch (l : List γ) (first last : Nat) : List γ := (l.take last).drop first

theorem mem_stretch {l : List γ} {first last : Nat} {x : γ} :
    x ∈ stretch l first last ↔ ∃ k, first ≤ k ∧ k < last ∧ l[k]? = some x := by
  rw [stretch, List.mem_iff_getElem?]
  constructor
  · intro hmem
    obtain ⟨k, hk⟩ := hmem
    rw [List.getElem?_drop, List.getElem?_take] at hk
    split at hk
    · exact ⟨first + k, Nat.le_add_right _ _, ‹_›, hk⟩
    · cases hk
  · intro hmem
    obtain ⟨k, hfirst, hlast, hk⟩ := hmem
    refine ⟨k - first, ?_⟩
    rw [List.getElem?_drop, List.getElem?_take, Nat.add_sub_cancel' hfirst, if_pos hlast]
    exact hk

theorem stretch_length {l : List γ} (first : Nat) {last : Nat} (hlast : last ≤ l.length) :
    (stretch l first last).length = last - first := by
  rw [stretch, List.length_drop, List.length_take_of_le hlast]

theorem stretch_append {l : List γ} {first mid last : Nat} (hfirst : first ≤ mid)
    (hmid : mid ≤ last) :
    stretch l first last = stretch l first mid ++ stretch l mid last := by
  have hcut : (l.take last).take mid = l.take mid := by
    rw [List.take_take, Nat.min_eq_left hmid]
  unfold stretch
  conv_lhs => rw [← List.take_append_drop mid (l.take last), hcut]
  rcases Nat.lt_or_ge l.length mid with hlong | hlong
  · have hlen : (l.take last).length ≤ mid := by
      rw [List.length_take]
      omega
    rw [List.drop_eq_nil_of_le hlen, List.append_nil, List.append_nil]
  · rw [List.drop_append_of_le_length (by rw [List.length_take]; omega)]

theorem stretch_congr {l r : List γ} {first last : Nat}
    (h : ∀ k, first ≤ k → k < last → r[k]? = l[k]?) :
    stretch r first last = stretch l first last := by
  apply List.ext_getElem?
  intro k
  rw [stretch, stretch, List.getElem?_drop, List.getElem?_drop, List.getElem?_take,
    List.getElem?_take]
  split
  · exact h _ (Nat.le_add_right _ _) ‹_›
  · rfl

theorem stretch_cons {l : List γ} {first last : Nat} {v : γ} (hlt : first < last)
    (hv : l[first]? = some v) : stretch l first last = v :: stretch l (first + 1) last := by
  have hget : (l.take last)[first]? = some v := by
    rw [List.getElem?_take, if_pos hlt]
    exact hv
  obtain ⟨hlen, hval⟩ := List.getElem?_eq_some_iff.mp hget
  rw [stretch, List.drop_eq_getElem_cons hlen, hval]
  rfl

/-- What is in front of the range, the range and what is behind it. -/
theorem cut_stretch {l : List γ} {first last : Nat} (hle : first ≤ last) :
    l = l.take first ++ stretch l first last ++ l.drop last := by
  have hfront : (l.take last).take first = l.take first := by
    rw [List.take_take, Nat.min_eq_left hle]
  rw [stretch, ← hfront, List.take_append_drop, List.take_append_drop]

/-! ## Rearranging a range -/

/-- `r` is `l` with the elements of `[first, last)` in another order. -/
structure Within (first last : Nat) (l r : List γ) : Prop where
  perm : l.Perm r
  same : ∀ k, k < first ∨ last ≤ k → r[k]? = l[k]?

namespace Within

variable {first last : Nat} {l r s : List γ}

theorem refl (first last : Nat) (l : List γ) : Within first last l l := ⟨.refl l, fun _ _ => rfl⟩

theorem symm (h : Within first last l r) : Within first last r l :=
  ⟨h.perm.symm, fun k hk => (h.same k hk).symm⟩

theorem trans (h : Within first last l r) (h' : Within first last r s) : Within first last l s :=
  ⟨h.perm.trans h'.perm, fun k hk => (h'.same k hk).trans (h.same k hk)⟩

theorem mono {first' last' : Nat} (h : Within first' last' l r) (hfirst : first ≤ first')
    (hlast : last' ≤ last) : Within first last l r :=
  ⟨h.perm, fun k hk => h.same k (by omega)⟩

theorem length_eq (h : Within first last l r) : r.length = l.length := h.perm.length_eq.symm

theorem take_eq (h : Within first last l r) : r.take first = l.take first := by
  apply List.ext_getElem?
  intro k
  rw [List.getElem?_take, List.getElem?_take]
  split
  · exact h.same k (.inl ‹_›)
  · rfl

theorem drop_eq (h : Within first last l r) : r.drop last = l.drop last := by
  apply List.ext_getElem?
  intro k
  rw [List.getElem?_drop, List.getElem?_drop]
  exact h.same _ (.inr (Nat.le_add_right _ _))

theorem stretch (h : Within first last l r) (hle : first ≤ last) :
    (stretch l first last).Perm (stretch r first last) := by
  have hperm := h.perm
  rw [cut_stretch (l := l) hle, cut_stretch (l := r) hle, h.take_eq, h.drop_eq] at hperm
  exact (List.perm_append_left_iff _).mp ((List.perm_append_right_iff _).mp hperm)

theorem of_stretch {m : List γ} (hle : first ≤ last) (hlast : last ≤ l.length)
    (hperm : (Support.stretch l first last).Perm m) :
    Within first last l (l.take first ++ m ++ l.drop last) ∧
      Support.stretch (l.take first ++ m ++ l.drop last) first last = m := by
  have hfront : (l.take first).length = first := List.length_take_of_le (by omega)
  have hmlen : m.length = last - first := by rw [← hperm.length_eq, stretch_length first hlast]
  have hboth : (l.take first ++ m).length = last := by
    rw [List.length_append, hfront, hmlen]
    omega
  refine ⟨⟨?_, fun k hk => ?_⟩, ?_⟩
  · conv_lhs => rw [cut_stretch (l := l) hle]
    exact (hperm.append_left _).append_right _
  · obtain hk | hk := hk
    · rw [List.getElem?_append_left (by omega), List.getElem?_append_left (by omega),
        List.getElem?_take, if_pos hk]
    · rw [List.getElem?_append_right (by omega), hboth, List.getElem?_drop, Nat.add_sub_cancel' hk]
  · rw [Support.stretch, List.take_left' hboth, List.drop_left' hfront]

end Within

/-- Two elements of the range change places. -/
theorem iterSwap_within {l : List γ} {first last i j : Nat} {x y : γ} (hx : l[i]? = some x)
    (hy : l[j]? = some y) (hne : i ≠ j) (hi : first ≤ i ∧ i < last) (hj : first ≤ j ∧ j < last) :
    ∃ r, iterSwap l i j = .ok r ∧ Within first last l r ∧ r[i]? = some y ∧ r[j]? = some x ∧
      ∀ k, k ≠ i → k ≠ j → r[k]? = l[k]? := by
  have hilen := (List.getElem?_eq_some_iff.mp hx).1
  have hjlen := (List.getElem?_eq_some_iff.mp hy).1
  have hothers : ∀ k, k ≠ i → k ≠ j → ((l.set i y).set j x)[k]? = l[k]? := fun k hki hkj =>
    getElem?_swap_ne hki hkj x y
  refine ⟨_, iterSwap_eq hx hy, ⟨perm_swap hx hy, fun k hk => hothers k (by omega) (by omega)⟩, ?_,
    getElem?_swap_right hjlen x y, hothers⟩
  rw [List.getElem?_set_ne hne.symm, List.getElem?_set_self hilen]

/-! ## Placed elements -/

/-- `v` stands at `nth`, nothing before it in `[first, last)` is greater and nothing behind
it smaller. -/
structure PlacedIn (lt : γ → γ → Bool) (r : List γ) (first last nth : Nat) (v : γ) : Prop where
  get : r[nth]? = some v
  before : ∀ k x, first ≤ k → k < nth → r[k]? = some x → lt v x = false
  behind : ∀ k x, nth < k → k < last → r[k]? = some x → lt x v = false

theorem PlacedIn.mono {r : List γ} {first last first' last' nth : Nat} {v : γ}
    (h : PlacedIn lt r first last nth v) (hfirst : first ≤ first') (hlast : last' ≤ last) :
    PlacedIn lt r first' last' nth v where
  get := h.get
  before k x hk := h.before k x (by omega)
  behind k x hk hk' := h.behind k x hk (by omega)

/-- What is placed separates the two sides. -/
theorem PlacedIn.cross (h : StrictWeakOrder lt) {r : List γ} {first last i a b : Nat} {w x y : γ}
    (hplaced : PlacedIn lt r first last i w) (ha : first ≤ a) (hai : a ≤ i) (hib : i ≤ b)
    (hb : b < last) (hx : r[a]? = some x) (hy : r[b]? = some y) : lt y x = false := by
  have hle : lt w x = false := by
    rcases Nat.eq_or_lt_of_le hai with heq | hlt
    · rw [heq, hplaced.get, Option.some.injEq] at hx
      rw [hx]
      exact h.not_self x
    · exact hplaced.before a x ha hlt hx
  rcases Nat.eq_or_lt_of_le hib with heq | hlt
  · rw [← heq, hplaced.get, Option.some.injEq] at hy
    rwa [← hy]
  · exact h.not_lt_trans hle (hplaced.behind b y hlt hb hy)

/-- An element placed in the part before `i` is placed in the whole. -/
theorem PlacedIn.of_before (h : StrictWeakOrder lt) {r : List γ} {first last i nth : Nat} {v w : γ}
    (hplaced : PlacedIn lt r first last i w) (hpart : PlacedIn lt r first i nth v)
    (hfirst : first ≤ nth) (hnth : nth < i) : PlacedIn lt r first last nth v := by
  refine ⟨hpart.get, hpart.before, fun k y hk hk' hy => ?_⟩
  rcases Nat.lt_or_ge k i with hki | hki
  · exact hpart.behind k y hk hki hy
  · exact hplaced.cross h hfirst (Nat.le_of_lt hnth) hki hk' hpart.get hy

theorem PlacedIn.of_behind (h : StrictWeakOrder lt) {r : List γ} {first last i nth : Nat} {v w : γ}
    (hplaced : PlacedIn lt r first last i w) (hpart : PlacedIn lt r i last nth v) (hnth : i < nth)
    (hlast : nth < last) : PlacedIn lt r first last nth v := by
  refine ⟨hpart.get, fun k y hk hk' hy => ?_, hpart.behind⟩
  rcases Nat.lt_or_ge k i with hki | hki
  · exact hplaced.cross h hk (Nat.le_of_lt hki) (Nat.le_of_lt hnth) hlast hy hpart.get
  · exact hpart.before k y hki hk' hy

theorem PlacedIn.rank (h : StrictWeakOrder lt) {r : List γ} {first last nth : Nat} {v : γ}
    (hplaced : PlacedIn lt r first last nth v) (hfirst : first ≤ nth) (hlast : nth < last) :
    Rank lt (stretch r first last) (nth - first) v := by
  have hlen := (List.getElem?_eq_some_iff.mp hplaced.get).1
  rw [stretch_append hfirst (Nat.le_of_lt hlast), stretch_cons hlast hplaced.get,
    ← stretch_length (l := r) first (Nat.le_of_lt hlen)]
  refine rank_of_split h (fun x hx => ?_) fun x hx => ?_
  · obtain ⟨k, hk, hk', hget⟩ := mem_stretch.mp hx
    exact hplaced.before k x hk hk' hget
  · obtain ⟨k, hk, hk', hget⟩ := mem_stretch.mp hx
    exact hplaced.behind k x hk hk' hget

/-- `[first, last)` is sorted. -/
def SortedIn (lt : γ → γ → Bool) (r : List γ) (first last : Nat) : Prop :=
  ∀ a b x y, first ≤ a → a < b → b < last → r[a]? = some x → r[b]? = some y → lt y x = false

theorem SortedIn.placedIn {r : List γ} {first last nth : Nat} {v : γ}
    (h : SortedIn lt r first last) (hfirst : first ≤ nth) (hlast : nth < last)
    (hv : r[nth]? = some v) : PlacedIn lt r first last nth v where
  get := hv
  before k x hk hk' hx := h k nth x v hk hk' hlast hx hv
  behind k x hk hk' hx := h nth k v x hfirst hk hk' hv hx

/-- A range can be rearranged so that an element is placed at `nth`. -/
theorem exists_placedIn (h : StrictWeakOrder lt) {l : List γ} {first last nth : Nat}
    (hfirst : first ≤ nth) (hlast : nth < last) (hlength : last ≤ l.length) :
    ∃ r v, Within first last l r ∧ PlacedIn lt r first last nth v := by
  have htotal : ∀ a b : γ, (!lt b a || !lt a b) = true := by
    intro a b
    cases hab : lt a b with
    | false => rw [Bool.not_false, Bool.or_true]
    | true => rw [h.asymm hab, Bool.not_false, Bool.true_or]
  have htrans : ∀ a b c : γ, (!lt b a) = true → (!lt c b) = true → (!lt c a) = true := by
    intro a b c hab hbc
    simp only [Bool.not_eq_true'] at hab hbc ⊢
    exact h.not_lt_trans hab hbc
  have hperm := (List.mergeSort_perm (stretch l first last) fun a b => !lt b a).symm
  have hsorted := List.pairwise_mergeSort htrans htotal (stretch l first last)
  generalize (stretch l first last).mergeSort (fun a b => !lt b a) = m at hperm hsorted
  obtain ⟨hwithin, hstretch⟩ := Within.of_stretch (by omega) hlength hperm
  generalize l.take first ++ m ++ l.drop last = r at hwithin hstretch
  have hlen := hwithin.length_eq
  have hnth : nth < r.length := by omega
  subst hstretch
  have hcut := stretch_append (l := r) (Nat.le_of_lt hlast) (Nat.le_refl last)
  have hget := List.getElem?_eq_getElem hnth
  rw [stretch_append hfirst (Nat.le_of_lt hlast), stretch_cons hlast hget] at hsorted
  obtain ⟨_, hbehind, hbefore⟩ := List.pairwise_append.mp hsorted
  refine ⟨r, r[nth], hwithin, hget, fun k x hk hk' hx => ?_, fun k x hk hk' hx => ?_⟩
  · have hle := hbefore x (mem_stretch.mpr ⟨k, hk, hk', hx⟩) _ List.mem_cons_self
    simpa using hle
  · have hle := (List.pairwise_cons.mp hbehind).1 x (mem_stretch.mpr ⟨k, hk, hk', hx⟩)
    simpa using hle

/-! ## Narrowing the range -/

/-- Rearranging `[first, last)` alone can still place an element at `nth`. -/
def CanPlace (lt : γ → γ → Bool) (l : List γ) (first last nth : Nat) : Prop :=
  ∃ v, (∀ x ∈ l.take first, lt v x = false) ∧ (∀ x ∈ l.drop last, lt x v = false) ∧
    Rank lt (stretch l first last) (nth - first) v

section

variable {l r : List γ} {first last nth : Nat} {v : γ}

theorem CanPlace.within (hcan : CanPlace lt l first last nth) (hle : first ≤ last)
    (hwithin : Within first last l r) : CanPlace lt r first last nth := by
  obtain ⟨v, hfront, hback, hrank⟩ := hcan
  refine ⟨v, ?_, ?_, hrank.perm (hwithin.stretch hle)⟩
  · rwa [hwithin.take_eq]
  · rwa [hwithin.drop_eq]

theorem canPlace_within_iff (hle : first ≤ last) (hwithin : Within first last l r) :
    CanPlace lt l first last nth ↔ CanPlace lt r first last nth :=
  ⟨fun hcan => hcan.within hle hwithin, fun hcan => hcan.within hle hwithin.symm⟩

theorem PlacedIn.canPlace (h : StrictWeakOrder lt) (hplaced : PlacedIn lt r 0 r.length nth v)
    (hfirst : first ≤ nth) (hlast : nth < last) : CanPlace lt r first last nth := by
  have hlen := (List.getElem?_eq_some_iff.mp hplaced.get).1
  refine ⟨v, fun x hx => ?_, fun x hx => ?_, ?_⟩
  · obtain ⟨k, hk⟩ := List.mem_iff_getElem?.mp hx
    rw [List.getElem?_take] at hk
    split at hk
    · exact hplaced.before k x (Nat.zero_le k) (by omega) hk
    · cases hk
  · obtain ⟨k, hk⟩ := List.mem_iff_getElem?.mp hx
    rw [List.getElem?_drop] at hk
    have hlt := (List.getElem?_eq_some_iff.mp hk).1
    exact hplaced.behind _ x (by omega) hlt hk
  · have hrange : PlacedIn lt r first last nth v := by
      refine ⟨hplaced.get, fun k x hk => hplaced.before k x (Nat.zero_le k),
        fun k x hk hk' hx => ?_⟩
      exact hplaced.behind k x hk (List.getElem?_eq_some_iff.mp hx).1 hx
    exact hrange.rank h hfirst hlast

/-- What is placed in a range that suffices is placed in the whole list. -/
theorem CanPlace.placed (h : StrictWeakOrder lt) (hcan : CanPlace lt r first last nth)
    (hplaced : PlacedIn lt r first last nth v) (hfirst : first ≤ nth) (hlast : nth < last) :
    PlacedIn lt r 0 r.length nth v := by
  obtain ⟨w, hfront, hback, hw⟩ := hcan
  have hv := hplaced.rank h hfirst hlast
  have hvw := hv.not_lt h hw
  have hwv := hw.not_lt h hv
  refine ⟨hplaced.get, fun k x _ hk hx => ?_, fun k x hk _ hx => ?_⟩
  · rcases Nat.lt_or_ge k first with hout | hin
    · have hmem : x ∈ r.take first := by
        rw [List.mem_iff_getElem?]
        exact ⟨k, by rwa [List.getElem?_take, if_pos hout]⟩
      exact h.not_lt_trans (hfront x hmem) hvw
    · exact hplaced.before k x hin hk hx
  · rcases Nat.lt_or_ge k last with hin | hout
    · exact hplaced.behind k x hk hin hx
    · have hmem : x ∈ r.drop last := by
        rw [List.mem_iff_getElem?]
        exact ⟨k - last, by rwa [List.getElem?_drop, Nat.add_sub_cancel' hout]⟩
      exact h.not_lt_trans hwv (hback x hmem)

theorem canPlace_iff_placed (h : StrictWeakOrder lt) (hplaced : PlacedIn lt r first last nth v)
    (hfirst : first ≤ nth) (hlast : nth < last) :
    CanPlace lt r first last nth ↔ PlacedIn lt r 0 r.length nth v :=
  ⟨fun hcan => hcan.placed h hplaced hfirst hlast, fun hall => hall.canPlace h hfirst hlast⟩

/-- The whole list suffices. -/
theorem canPlace_whole (h : StrictWeakOrder lt) (hnth : nth < l.length) :
    CanPlace lt l 0 l.length nth := by
  obtain ⟨r, v, hwithin, hplaced⟩ := exists_placedIn h (Nat.zero_le nth) hnth (Nat.le_refl _)
  have hall : PlacedIn lt r 0 r.length nth v := by rwa [hwithin.length_eq]
  exact (hall.canPlace h (Nat.zero_le nth) hnth).within (Nat.zero_le _) hwithin.symm

/-- `[first, mid)`, `[mid, mid')` and `[mid', last)` are in order. -/
structure Separated (lt : γ → γ → Bool) (l : List γ) (first mid mid' last : Nat) : Prop where
  front : ∀ k j x y, first ≤ k → k < mid → mid ≤ j → j < mid' → l[k]? = some x → l[j]? = some y →
    lt y x = false
  back : ∀ k j x y, mid ≤ k → k < mid' → mid' ≤ j → j < last → l[k]? = some x → l[j]? = some y →
    lt y x = false

/-- Narrowing to a separated range loses nothing. -/
theorem canPlace_separated (h : StrictWeakOrder lt) {mid mid' : Nat}
    (hsep : Separated lt l first mid mid' last) (hfirst : first ≤ mid) (hmid : mid ≤ nth)
    (hmid' : nth < mid') (hlast : mid' ≤ last) (hlength : last ≤ l.length) :
    CanPlace lt l first last nth ↔ CanPlace lt l mid mid' nth := by
  obtain ⟨r, v, hwithin, hplaced⟩ := exists_placedIn h hmid hmid' (by omega : mid' ≤ l.length)
  have hnarrow : Within first last l r := hwithin.mono hfirst hlast
  have hrange : PlacedIn lt r first last nth v := by
    obtain ⟨hget, hbefore, hbehind⟩ := hplaced
    have hmem : v ∈ stretch l mid mid' :=
      (hwithin.stretch (by omega)).mem_iff.mpr (mem_stretch.mpr ⟨nth, hmid, hmid', hget⟩)
    obtain ⟨j, hj, hj', hv⟩ := mem_stretch.mp hmem
    refine ⟨hget, fun k x hk hk' hx => ?_, fun k x hk hk' hx => ?_⟩
    · rcases Nat.lt_or_ge k mid with hout | hin
      · rw [hwithin.same k (.inl hout)] at hx
        exact hsep.front k j x v hk hout hj hj' hx hv
      · exact hbefore k x hin hk' hx
    · rcases Nat.lt_or_ge k mid' with hin | hout
      · exact hbehind k x hk hin hx
      · rw [hwithin.same k (.inr hout)] at hx
        exact hsep.back j k v x hj hj' hout hk' hv hx
  rw [canPlace_within_iff (by omega) hnarrow, canPlace_within_iff (by omega) hwithin,
    canPlace_iff_placed h hrange (by omega) (by omega),
    canPlace_iff_placed h hplaced hmid hmid']

/-- What is done in front of the range does not matter. -/
theorem CanPlace.front (hcan : CanPlace lt l first last nth) (hwithin : Within 0 first l r)
    (hle : first ≤ last) : CanPlace lt r first last nth := by
  obtain ⟨v, hfront, hback, hrank⟩ := hcan
  have hperm : (l.take first).Perm (r.take first) := hwithin.stretch (Nat.zero_le first)
  have hdrop := (hwithin.mono (Nat.le_refl 0) hle).drop_eq
  have hsame : ∀ k, first ≤ k → k < last → r[k]? = l[k]? := fun k hk _ => hwithin.same k (.inr hk)
  refine ⟨v, fun x hx => hfront x (hperm.mem_iff.mpr hx), ?_, ?_⟩
  · rwa [hdrop]
  · rwa [stretch_congr hsame]

theorem canPlace_front_iff (hwithin : Within 0 first l r) (hle : first ≤ last) :
    CanPlace lt l first last nth ↔ CanPlace lt r first last nth :=
  ⟨fun hcan => hcan.front hwithin hle, fun hcan => hcan.front hwithin.symm hle⟩

/-- An element may be left in front if enough of the range is not smaller. -/
theorem canPlace_succ_iff (h : StrictWeakOrder lt) {x : γ} (hx : l[first]? = some x)
    (hfirst : first < nth) (hlast : nth < last) :
    CanPlace lt l (first + 1) last nth ↔
      CanPlace lt l first last nth ∧
        (stretch l first last).countP (fun y => lt y x) ≤ nth - (first + 1) := by
  have hcons := stretch_cons (hfirst.trans hlast) hx
  have htake : l.take (first + 1) = l.take first ++ [x] := by
    rw [List.take_add_one, hx]
    rfl
  have hself : ∀ v, lt v x = false → (stretch l first last).countP (fun y => !lt v y) =
      (stretch l (first + 1) last).countP (fun y => !lt v y) + 1 := by
    intro v hvx
    rw [hcons, List.countP_cons, hvx, Bool.not_false, if_pos rfl]
  have hless : ∀ v, (stretch l first last).countP (fun y => lt y v) =
      (stretch l (first + 1) last).countP (fun y => lt y v) + if lt x v then 1 else 0 := by
    intro v
    rw [hcons, List.countP_cons]
  constructor
  · intro hcan
    obtain ⟨v, hfront, hback, hbelow, habove⟩ := hcan
    rw [htake] at hfront
    have hvx : lt v x = false := hfront x (List.mem_append_right _ List.mem_cons_self)
    have hmono : (stretch l (first + 1) last).countP (fun y => lt y x) ≤
        (stretch l (first + 1) last).countP (fun y => lt y v) := by
      refine List.countP_mono_left fun y _ hyx => ?_
      exact h.lt_of_lt_of_not_lt hyx hvx
    refine ⟨⟨v, fun y hy => hfront y (List.mem_append_left _ hy), hback, ?_, ?_⟩, ?_⟩
    · rw [hless]
      split <;> omega
    · rw [hself v hvx]
      omega
    · rw [hless, h.not_self, if_neg Bool.false_ne_true]
      omega
  · intro hcan
    obtain ⟨⟨v, hfront, hback, hbelow, habove⟩, hcount⟩ := hcan
    have hvx : lt v x = false := by
      by_contra hlt
      have hle := countP_le_of_lt h (by simpa using hlt) (stretch l first last)
      omega
    refine ⟨v, fun y hy => ?_, hback, ?_, ?_⟩
    · rw [htake] at hy
      obtain hy | hy := List.mem_append.mp hy
      · exact hfront y hy
      · rw [List.mem_singleton.mp hy]
        exact hvx
    · rw [hless] at hbelow hcount
      rw [h.not_self, if_neg Bool.false_ne_true] at hcount
      cases hxv : lt x v with
      | true =>
        rw [hxv, if_pos rfl] at hbelow
        omega
      | false =>
        -- `x` is equivalent to `v`, and as few elements are smaller
        have hmono : (stretch l (first + 1) last).countP (fun y => lt y v) ≤
            (stretch l (first + 1) last).countP (fun y => lt y x) := by
          refine List.countP_mono_left fun y _ hyv => ?_
          exact h.lt_of_lt_of_not_lt hyv hxv
        omega
    · rw [hself v hvx] at habove
      omega

end

end EARanges.Support
