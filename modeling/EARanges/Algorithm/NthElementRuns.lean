import EARanges.Algorithm.NthElement

/-!
# Runs of `nth_element`

A turn that does not get to the `continue` keeps what the range can still yield, and so
does a run of such turns. The `continue` lets the search for a guard run down through the
gathered elements: it exchanges the first element of the second part with one in front of
it, and leaves two elements of the second part behind. `Harmless` says when that does not
matter, and `foundIff` that nothing else does.
-/
namespace EARanges.Algorithm
open EARanges.Support

variable {α κ : Type}

/-- What stands behind `i` once the median has been compared with it. -/
def secondLeft (lt : α → α → Bool) (l : List α) (i m : Nat) : Option α :=
  match l[m]?, l[i + 1]? with
  | some v, some w => if i < m ∧ lt v w = true then some v else some w
  | _, _ => none

/-- At the `continue`, with the second part `[i, last)`: something smaller than the median
lies in front, and the two elements that are left behind would stand in front of `nth`, or
the second at `nth`, if the second part were sorted. -/
structure Harmless (lt : α → α → Bool) (nth last : Nat) (l : List α) (i m : Nat) : Prop where
  guard : ∃ k y v, k + 1 < i ∧ l[k]? = some y ∧ l[m]? = some v ∧ lt y v = true
  behind : i < nth
  median : nth = i + 1 → i < m
  first : ∀ x, l[i]? = some x → (stretch l i last).countP (fun y => lt y x) ≤ nth - (i + 1)
  second : ∀ x, secondLeft lt l i m = some x →
    (stretch l (i + 1) last).countP (fun y => lt y x) ≤ nth - (i + 2)

theorem secondLeft_moved {lt : α → α → Bool} {l : List α} {i m : Nat} {v w : α}
    (hv : l[m]? = some v) (hw : l[i + 1]? = some w) (him : i < m) (hvw : lt v w = true) :
    secondLeft lt l i m = some v := by
  rw [secondLeft, hv, hw]
  dsimp only
  rw [if_pos ⟨him, hvw⟩]

theorem secondLeft_kept {lt : α → α → Bool} {l : List α} {i m : Nat} {v w : α}
    (hv : l[m]? = some v) (hw : l[i + 1]? = some w) (hkeep : i < m → lt v w = false) :
    secondLeft lt l i m = some w := by
  rw [secondLeft, hv, hw]
  dsimp only
  rw [if_neg]
  intro hboth
  rw [hkeep hboth.1] at hboth
  exact Bool.false_ne_true hboth.2

variable {pred : κ → κ → Bool} {proj : α → κ} {nth : Nat}

/-! ## Behind the `continue` -/

theorem placeMedian_cases (pred : κ → κ → Bool) (proj : α → κ) (n : Nat) {l : List α} {i m : Nat}
    {v w : α} (hv : l[m]? = some v)
    (hw : l[i]? = some w) :
    ∃ r n', placeMedian pred proj l i m n = .ok (r, n') ∧
      ((r = l ∧ (i = m ∨ projected pred proj v w = false)) ∨
        (i ≠ m ∧ projected pred proj v w = true ∧ l.Perm r ∧ r[i]? = some v ∧ r[m]? = some w ∧
          ∀ k, k ≠ i → k ≠ m → r[k]? = l[k]?)) := by
  rw [placeMedian]
  by_cases hne : i ≠ m
  · rw [if_pos hne, lessAt_eq hv hw, exec_bind_ok]
    cases hlt : projected pred proj v w with
    | false =>
      rw [if_neg (by simp)]
      exact ⟨l, n, rfl, .inl ⟨rfl, .inr rfl⟩⟩
    | true =>
      have hi := (List.getElem?_eq_some_iff.mp hw).1
      have hm := (List.getElem?_eq_some_iff.mp hv).1
      obtain ⟨r, hswap, hwithin, hrv, hrw, hrest⟩ := iterSwap_within hw hv hne
        (show 0 ≤ i ∧ i < l.length by omega) (by omega)
      rw [if_pos rfl, hswap, exec_bind_ok]
      exact ⟨r, incSwaps n, rfl, .inr ⟨hne, rfl, hwithin.perm, hrv, hrw, hrest⟩⟩
  · rw [if_neg hne]
    exact ⟨l, n, rfl, .inl ⟨rfl, .inl (not_not.mp hne)⟩⟩

/-- The guard stands at `g`, and `r` is the list with it exchanged for the first element of
the second part. -/
structure Exchange (lt : α → α → Bool) (l r : List α) (i g m : Nat) (a u v : α) : Prop where
  before : g + 1 < i
  first : l[i]? = some a
  guard : l[g]? = some u
  median : l[m]? = some v
  guard_lt : lt u v = true
  perm : l.Perm r
  at_first : r[i]? = some u
  at_guard : r[g]? = some a
  same : ∀ k, k ≠ i → k ≠ g → r[k]? = l[k]?

theorem Exchange.guard_ne_median {lt : α → α → Bool} (h : StrictWeakOrder lt) {l r : List α}
    {i g m : Nat} {a u v : α} (hex : Exchange lt l r i g m a u v) : g ≠ m := by
  rintro rfl
  have huv := hex.guard_lt
  obtain rfl : u = v := eq_of_read hex.median hex.guard
  rw [h.not_self] at huv
  cases huv

section
variable {s : NthState α} {l : List α} {i m : Nat} {x : α}

theorem AtContinue.first_lt (hat : AtContinue (projected pred proj) nth s l i m x) {k : Nat} {y : α}
    (hk : i ≤ k) (hk' : k < s.last) (hy : l[k]? = some y) : projected pred proj x y = true := by
  simpa [notAbove] using hat.apart.right k y hk hk' hy

theorem AtContinue.gathered (hat : AtContinue (projected pred proj) nth s l i m x) {k : Nat} {y : α}
    (hk : s.first ≤ k) (hk' : k < i) (hy : l[k]? = some y) : projected pred proj x y = false := by
  simpa [notAbove] using hat.apart.left k y hk hk' hy

/-- Without a smaller element in front the search leaves the range. -/
theorem continue_cases (h : StrictWeakOrder pred) (hs : Holding nth s)
    (hat : AtContinue (projected pred proj) nth s l i m x) (n fuel : Nat) :
    (guardLoop pred proj nth s.last m (fuel + 1) l i i (i - 1) n = .error .fault ∧
        ¬ ∃ k y v, k + 1 < i ∧ l[k]? = some y ∧ l[m]? = some v ∧
          projected pred proj y v = true) ∨
      ∃ g r a u v, Exchange (projected pred proj) l r i g m a u v ∧
        projected pred proj x u = false ∧
        guardLoop pred proj nth s.last m (fuel + 1) l i i (i - 1) n =
          .ok (.found r i i g (incSwaps n)) := by
  have hproj := h.projected proj
  have hlen := hat.within.length_eq
  have hlast := hs.last_le
  have hnth := hs.lt_last
  have hle := hat.le_nth
  have htwo := hat.two
  obtain ⟨v, hv⟩ : ∃ v, l[m]? = some v :=
    ⟨_, List.getElem?_eq_getElem (by have := hat.median.2; omega)⟩
  obtain ⟨a, ha⟩ : ∃ a, l[i]? = some a := ⟨_, List.getElem?_eq_getElem (by omega)⟩
  rw [guardLoop]
  obtain ⟨hrun, hall⟩ | ⟨g, u, hrun, _, hg, hu, huv, hall⟩ :=
    findGuard_spec pred proj hv i (show i - 1 ≤ l.length by omega)
  · refine .inl ⟨?_, fun hsmaller => ?_⟩
    · rw [hrun, if_neg (by omega), exec_bind_error]
    · obtain ⟨k, y, v', hk, hy, hv', hlt⟩ := hsmaller
      rw [hv, Option.some.injEq] at hv'
      rw [← hv', hall k y (by omega) (by omega) hy] at hlt
      cases hlt
  · obtain ⟨r, hswap, hwithin, hru, hra, hrest⟩ := iterSwap_within ha hu (by omega)
      (show 0 ≤ i ∧ i < l.length by omega) (by omega)
    refine .inr ⟨g, r, a, u, v, ⟨by omega, ha, hu, hv, huv, hwithin.perm, hru, hra, hrest⟩, ?_, ?_⟩
    · rcases Nat.lt_or_ge g s.first with hout | hin
      · -- the search has passed a gathered element, which is not smaller than the median
        obtain ⟨e, he⟩ : ∃ e, l[i - 2]? = some e := ⟨_, List.getElem?_eq_getElem (by omega)⟩
        have hev := hall (i - 2) e (by omega) (by omega) he
        have hxe := hat.gathered (by omega) (by omega) he
        exact hproj.not_lt_trans (hproj.not_lt_trans (hproj.asymm huv) hev) hxe
      · exact hat.gathered hin (by omega) hu
    · rw [hrun, exec_bind_ok]
      dsimp only
      rw [hswap, exec_bind_ok]

/-- The two elements left behind: `l'` is `l` with the second of them at `i + 1`, and `r`
differs from it in front of `i + 2` only. -/
structure LeftBehind (lt : α → α → Bool) (l r : List α) (i last m : Nat) (a : α) : Prop where
  left : ∃ l' y, secondLeft lt l i m = some y ∧ Within (i + 1) last l l' ∧
    l'[i + 1]? = some y ∧ Within 0 (i + 2) l' r ∧ (i < m → Within 0 (i + 1) l' r)
  misplaced : m ≤ i → ∃ k z, k < i ∧ r[k]? = some a ∧ r[i + 1]? = some z ∧ lt z a = true

/-- The median is in the second part. -/
theorem placeMedian_leaves_part (h : StrictWeakOrder pred) (hs : Holding nth s)
    (hat : AtContinue (projected pred proj) nth s l i m x) {r : List α} {g : Nat} {a u v : α}
    (hex : Exchange (projected pred proj) l r i g m a u v) (him : i < m) (n : Nat) :
    ∃ r' n', placeMedian pred proj r (i + 1) m n = .ok (r', n') ∧ l.Perm r' ∧
      LeftBehind (projected pred proj) l r' i s.last m a := by
  have hproj := h.projected proj
  have hgm := hex.guard_ne_median hproj
  have hlen := hat.within.length_eq
  have hlast := hs.last_le
  have hm := hat.median.2
  obtain ⟨hg, _, _, hv, _, hperm, _, _, hrest⟩ := hex
  obtain ⟨w, hw⟩ : ∃ w, l[i + 1]? = some w := ⟨_, List.getElem?_eq_getElem (by omega)⟩
  have hrw : r[i + 1]? = some w := by rw [hrest (i + 1) (by omega) (by omega), hw]
  have hrv : r[m]? = some v := by rw [hrest m (by omega) hgm.symm, hv]
  obtain ⟨r', n', hrun, hsame | hmoved⟩ := placeMedian_cases pred proj n hrv hrw
  · obtain ⟨rfl, hkeep⟩ := hsame
    have hvw : projected pred proj v w = false := by
      obtain hmi | hvw := hkeep
      · rw [← hmi, hw, Option.some.injEq] at hv
        rw [hv, hproj.not_self]
      · exact hvw
    have hsecond : secondLeft (projected pred proj) l i m = some w :=
      secondLeft_kept hv hw fun _ => hvw
    have hfront : Within 0 (i + 1) l r' := ⟨hperm, fun k hk => hrest k (by omega) (by omega)⟩
    exact ⟨r', n', hrun, hperm, ⟨l, w, hsecond, .refl _ _ _, hw,
      hfront.mono (Nat.le_refl 0) (Nat.le_succ _), fun _ => hfront⟩, fun hmi => by omega⟩
  · obtain ⟨hne, hvw, hperm', hrv', hrw', hrest'⟩ := hmoved
    obtain ⟨l', _, hwithin, hlv, hlw, hlrest⟩ := iterSwap_within hw hv hne
      (show i + 1 ≤ i + 1 ∧ i + 1 < s.last by omega) (by omega)
    have hfront : Within 0 (i + 1) l' r' := by
      refine ⟨hwithin.perm.symm.trans (hperm.trans hperm'), fun k hk => ?_⟩
      by_cases hki : k = i + 1
      · rw [hki, hrv', hlv]
      · by_cases hkm : k = m
        · rw [hkm, hrw', hlw]
        · rw [hrest' k hki hkm, hrest k (by omega) (by omega), hlrest k hki hkm]
    exact ⟨r', n', hrun, hperm.trans hperm', ⟨l', v, secondLeft_moved hv hw him hvw, hwithin, hlv,
      hfront.mono (Nat.le_refl 0) (Nat.le_succ _), fun _ => hfront⟩, fun hmi => by omega⟩

/-- The median has been gathered, or is the element that was exchanged for the guard. -/
theorem placeMedian_leaves_gathered (h : StrictWeakOrder pred) (hs : Holding nth s)
    (hat : AtContinue (projected pred proj) nth s l i m x) {r : List α} {g : Nat} {a u v : α}
    (hex : Exchange (projected pred proj) l r i g m a u v) (hxu : projected pred proj x u = false)
    (hnext : i + 1 < s.last) (hmi : m ≤ i) (n : Nat) :
    ∃ r' n', placeMedian pred proj r (i + 1) m n = .ok (r', n') ∧ l.Perm r' ∧
      LeftBehind (projected pred proj) l r' i s.last m a := by
  have hproj := h.projected proj
  have hgm := hex.guard_ne_median hproj
  have hlen := hat.within.length_eq
  have hlast := hs.last_le
  obtain ⟨hg, ha, _, hv, _, hperm, hri, hrg, hrest⟩ := hex
  obtain ⟨w, hw⟩ : ∃ w, l[i + 1]? = some w := ⟨_, List.getElem?_eq_getElem (by omega)⟩
  have hxw := hat.first_lt (Nat.le_succ i) hnext hw
  have hxa := hat.first_lt (Nat.le_refl i) (by omega) ha
  have hrw : r[i + 1]? = some w := by rw [hrest (i + 1) (by omega) (by omega), hw]
  obtain ⟨z, hz, hxz⟩ : ∃ z, r[m]? = some z ∧ projected pred proj x z = false := by
    rcases Nat.eq_or_lt_of_le hmi with heq | hlt
    · exact ⟨u, heq ▸ hri, hxu⟩
    · exact ⟨v, by rw [hrest m (by omega) hgm.symm, hv],
        hat.gathered (Nat.le_of_lt hat.median.1) hlt hv⟩
  have hza := hproj.lt_of_not_lt_of_lt hxz hxa
  have hzw := hproj.lt_of_not_lt_of_lt hxz hxw
  obtain ⟨r', n', hrun, hsame | hmoved⟩ := placeMedian_cases pred proj n hz hrw
  · obtain ⟨_, hkeep | hkeep⟩ := hsame
    · omega
    · rw [hzw] at hkeep
      cases hkeep
  · obtain ⟨hne, _, hperm', hrz, hrw', hrest'⟩ := hmoved
    have hsecond : secondLeft (projected pred proj) l i m = some w :=
      secondLeft_kept hv hw fun him => by omega
    refine ⟨r', n', hrun, hperm.trans hperm', ⟨l, w, hsecond, .refl _ _ _, hw,
      ⟨hperm.trans hperm', fun k hk => ?_⟩, fun him => by omega⟩,
      fun _ => ⟨g, z, by omega, ?_, hrz, hza⟩⟩
    · rw [hrest' k (by omega) (by omega), hrest k (by omega) (by omega)]
    · rw [hrest' g (by omega) hgm, hrg]

theorem placeMedian_leaves (h : StrictWeakOrder pred) (hs : Holding nth s)
    (hat : AtContinue (projected pred proj) nth s l i m x) {r : List α} {g : Nat} {a u v : α}
    (hex : Exchange (projected pred proj) l r i g m a u v) (hxu : projected pred proj x u = false)
    (hnext : i + 1 < s.last) (n : Nat) :
    ∃ r' n', placeMedian pred proj r (i + 1) m n = .ok (r', n') ∧ l.Perm r' ∧
      LeftBehind (projected pred proj) l r' i s.last m a := by
  rcases Nat.lt_or_ge i m with him | hmi
  · exact placeMedian_leaves_part h hs hat hex him n
  · exact placeMedian_leaves_gathered h hs hat hex hxu hnext hmi n

/-- With `nth` at the begin of the second part something misplaced is returned. -/
theorem placeMedian_at_first (h : StrictWeakOrder pred)
    (hat : AtContinue (projected pred proj) nth s l i m x) {r : List α} {g n : Nat} {a u v : α}
    (hex : Exchange (projected pred proj) l r i g m a u v) (hxu : projected pred proj x u = false)
    (hlast : i < s.last) {r' : List α} {n' : Nat}
    (hrun : placeMedian pred proj r (i + 1) m n = .ok (r', n')) (w : α) :
    ¬ PlacedIn (projected pred proj) r' 0 r'.length i w := by
  intro hplaced
  have hproj := h.projected proj
  have hgm := hex.guard_ne_median hproj
  obtain ⟨hg, ha, _, hv, _, _, hri, hrg, hrest⟩ := hex
  have hxa := hat.first_lt (Nat.le_refl i) hlast ha
  have hua := hproj.lt_of_not_lt_of_lt hxu hxa
  -- the exchanged element stands in front of what it was exchanged for
  have hinversion : r'[i]? = some u → r'[g]? = some a → False := by
    intro hi' hg'
    have hle := hplaced.before g a (Nat.zero_le g) (by omega) hg'
    rw [hplaced.get, Option.some.injEq] at hi'
    rw [hi', hua] at hle
    cases hle
  obtain ⟨z, hz⟩ : ∃ z, r[m]? = some z := by
    by_cases hmi : m = i
    · exact ⟨u, hmi ▸ hri⟩
    · exact ⟨v, by rw [hrest m hmi hgm.symm, hv]⟩
  rw [placeMedian] at hrun
  by_cases hne : i + 1 ≠ m
  · rw [if_pos hne] at hrun
    cases hy : r[i + 1]? with
    | none =>
      rw [lessAt, deref_of_some hz, exec_bind_ok, deref, hy] at hrun
      cases hrun
    | some y =>
      obtain ⟨r'', n'', hrun', hsame | hmoved⟩ :=
        placeMedian_cases pred proj n hz hy
      · rw [placeMedian, if_pos hne] at hrun'
        obtain ⟨rfl, rfl⟩ := Prod.mk.inj (Except.ok.inj (hrun'.symm.trans hrun))
        obtain ⟨rfl, _⟩ := hsame
        exact hinversion hri hrg
      · rw [placeMedian, if_pos hne] at hrun'
        obtain ⟨rfl, rfl⟩ := Prod.mk.inj (Except.ok.inj (hrun'.symm.trans hrun))
        obtain ⟨_, hzy, _, hrz, hry, hrest'⟩ := hmoved
        by_cases hmi : m = i
        · -- the exchanged element is the median, and goes behind `nth`
          have hbehind := hplaced.behind (i + 1) z (Nat.lt_succ_self i)
            (List.getElem?_eq_some_iff.mp hrz).1 hrz
          have hget := hplaced.get
          rw [← hmi, hry, Option.some.injEq] at hget
          rw [← hget, hzy] at hbehind
          cases hbehind
        · refine hinversion ?_ ?_
          · rw [hrest' i (by omega) (fun heq => hmi heq.symm), hri]
          · rw [hrest' g (by omega) hgm, hrg]
  · rw [if_neg hne, Except.ok.injEq, Prod.mk.injEq] at hrun
    rw [← hrun.1] at hinversion
    exact hinversion hri hrg

/-! ## What can still be placed -/

theorem canPlace_continue_iff (h : StrictWeakOrder pred) (hs : Holding nth s)
    (hat : AtContinue (projected pred proj) nth s l i m x) :
    CanPlace (projected pred proj) s.list s.first s.last nth ↔
      CanPlace (projected pred proj) l i s.last nth := by
  have hproj := h.projected proj
  have hfirst := hs.first_le
  have hlast := hs.lt_last
  have htwo := hat.two
  have hsep : Separated (projected pred proj) l s.first i s.last s.last := by
    refine ⟨fun k j y z hk hk' hj hj' hy hz => ?_, fun k j y z _ _ hj hj' => by omega⟩
    exact hproj.asymm (hproj.lt_of_not_lt_of_lt (hat.gathered hk hk' hy) (hat.first_lt hj hj' hz))
  rw [canPlace_within_iff (by omega) hat.within]
  exact canPlace_separated (h.projected proj) hsep (by omega) hat.le_nth hlast (Nat.le_refl _)
    (hat.within.length_eq ▸ hs.last_le)

theorem Exchange.harmless_iff {lt : α → α → Bool} {last : Nat} {r : List α} {g : Nat}
    {a u v y : α} (hex : Exchange lt l r i g m a u v) (hy : secondLeft lt l i m = some y)
    (hnth : i < nth) :
    Harmless lt nth last l i m ↔ (nth = i + 1 → i < m) ∧
      (stretch l i last).countP (fun z => lt z a) ≤ nth - (i + 1) ∧
      (stretch l (i + 1) last).countP (fun z => lt z y) ≤ nth - (i + 2) := by
  constructor
  · intro hharmless
    exact ⟨hharmless.median, hharmless.first a hex.first, hharmless.second y hy⟩
  · intro hall
    obtain ⟨hmedian, hfirst, hsecond⟩ := hall
    refine ⟨⟨g, u, v, hex.before, hex.guard, hex.median, hex.guard_lt⟩, hnth, hmedian,
      fun z hz => ?_, fun z hz => ?_⟩
    · rw [hex.first, Option.some.injEq] at hz
      rwa [← hz]
    · rw [hy, Option.some.injEq] at hz
      rwa [← hz]

section
variable {lt : α → α → Bool} {last : Nat} {l' : List α} {a y : α}

theorem canPlace_first_left (h : StrictWeakOrder lt) (ha : l[i]? = some a)
    (hwithin : Within (i + 1) last l l') (hnth : i < nth) (hlast : nth < last) :
    CanPlace lt l' (i + 1) last nth ↔
      CanPlace lt l i last nth ∧
        (stretch l i last).countP (fun z => lt z a) ≤ nth - (i + 1) := by
  have hinside : Within i last l l' := hwithin.mono (Nat.le_succ i) (Nat.le_refl last)
  have ha' : l'[i]? = some a := by rw [hwithin.same i (.inl (Nat.lt_succ_self i)), ha]
  rw [canPlace_succ_iff h ha' hnth hlast, canPlace_within_iff (by omega) hinside,
    (hinside.stretch (by omega)).countP_eq]

theorem canPlace_both_left (h : StrictWeakOrder lt) (ha : l[i]? = some a)
    (hwithin : Within (i + 1) last l l') (hy : l'[i + 1]? = some y) (hnth : i + 1 < nth)
    (hlast : nth < last) :
    CanPlace lt l' (i + 2) last nth ↔
      CanPlace lt l i last nth ∧
        (stretch l i last).countP (fun z => lt z a) ≤ nth - (i + 1) ∧
        (stretch l (i + 1) last).countP (fun z => lt z y) ≤ nth - (i + 2) := by
  rw [canPlace_succ_iff h hy hnth hlast, canPlace_first_left h ha hwithin (by omega) hlast,
    (hwithin.stretch (by omega)).countP_eq, and_assoc]

/-- With `nth` at `i + 1` the second element left behind is what is returned there. -/
theorem placed_second_iff (h : StrictWeakOrder lt) {r : List α} (ha : l[i]? = some a)
    (hwithin : Within (i + 1) last l l') (hy : l'[i + 1]? = some y)
    (hfront : Within 0 (i + 1) l' r) (hlast : i + 1 < last) (hlength : last ≤ l.length) :
    (∃ w, PlacedIn lt r 0 r.length (i + 1) w) ↔
      CanPlace lt l i last (i + 1) ∧
        (stretch l i last).countP (fun z => lt z a) ≤ i + 1 - (i + 1) ∧
        (stretch l (i + 1) last).countP (fun z => lt z y) ≤ i + 1 - (i + 2) := by
  have hry : r[i + 1]? = some y := by rw [hfront.same _ (.inr (Nat.le_refl _)), hy]
  have hrlen : r.length = l.length := hfront.length_eq.trans hwithin.length_eq
  have hsame : stretch r (i + 1) last = stretch l' (i + 1) last :=
    stretch_congr fun k hk _ => hfront.same k (.inr hk)
  have hzero : (stretch l (i + 1) last).countP (fun z => lt z y) ≤ i + 1 - (i + 2) ↔
      PlacedIn lt r (i + 1) last (i + 1) y := by
    have hnone : i + 1 - (i + 2) = 0 := by omega
    rw [(hwithin.stretch (by omega)).countP_eq, ← hsame, hnone, Nat.le_zero, List.countP_eq_zero]
    constructor
    · intro hall
      refine ⟨hry, fun k z hk hk' => by omega, fun k z hk hk' hz => ?_⟩
      simpa using hall z (mem_stretch.mpr ⟨k, Nat.le_of_lt hk, hk', hz⟩)
    · intro hplaced z hz
      obtain ⟨k, hk, hk', hget⟩ := mem_stretch.mp hz
      rcases Nat.eq_or_lt_of_le hk with heq | hlt
      · rw [← heq, hry, Option.some.injEq] at hget
        rw [← hget, h.not_self]
        exact Bool.false_ne_true
      · rw [hplaced.behind k z hlt hk' hget]
        exact Bool.false_ne_true
  rw [← and_assoc, ← canPlace_first_left h ha hwithin (Nat.lt_succ_self i) hlast, hzero,
    canPlace_front_iff hfront (by omega)]
  constructor
  · intro hplaced
    obtain ⟨w, hw⟩ := hplaced
    obtain rfl : y = w := eq_of_read hw.get hry
    refine ⟨hw.canPlace h (Nat.le_refl _) hlast, hw.mono (Nat.zero_le _) ?_⟩
    omega
  · intro hboth
    exact ⟨y, hboth.1.placed h hboth.2 (Nat.le_refl _) hlast⟩

end

end

/-! ## Runs -/

/-- A turn goes on with another range. -/
def Next (pred : κ → κ → Bool) (proj : α → κ) (nth : Nat) (s s' : NthState α) : Prop :=
  nthTurn pred proj nth s = .ok (.again s')

/-- Whenever the turn of `s` gets to the `continue`, it is harmless. -/
def HarmlessTurn (pred : κ → κ → Bool) (proj : α → κ) (nth : Nat) (s : NthState α) : Prop :=
  ∀ l i m, Continues pred proj nth s l i m → Harmless (projected pred proj) nth s.last l i m

/-- So does every turn from `s` on. -/
def HarmlessFrom (pred : κ → κ → Bool) (proj : α → κ) (nth : Nat) (s : NthState α) : Prop :=
  ∀ s', Relation.ReflTransGen (Next pred proj nth) s s' → HarmlessTurn pred proj nth s'

/-- The run returns a rearrangement with an element placed at `nth`. -/
def Found (pred : κ → κ → Bool) (proj : α → κ) (nth fuel : Nat) (s : NthState α) : Prop :=
  ∃ r v, nthLoop pred proj nth fuel s = .ok r ∧ s.list.Perm r ∧
    PlacedIn (projected pred proj) r 0 r.length nth v

theorem harmlessFrom_done {s : NthState α} {r : List α}
    (hturn : nthTurn pred proj nth s = .ok (.done r)) :
    HarmlessFrom pred proj nth s ↔ HarmlessTurn pred proj nth s := by
  constructor
  · exact fun hall => hall s .refl
  · intro hone s' hreached
    obtain rfl | ⟨c, hnext, _⟩ := Relation.ReflTransGen.cases_head hreached
    · exact hone
    · rw [Next, hturn] at hnext
      cases hnext

theorem harmlessFrom_again {s t : NthState α} (hnext : Next pred proj nth s t) :
    HarmlessFrom pred proj nth s ↔
      HarmlessTurn pred proj nth s ∧ HarmlessFrom pred proj nth t := by
  constructor
  · exact fun hall => ⟨hall s .refl, fun s' hreached => hall s' (.head hnext hreached)⟩
  · intro hboth s' hreached
    obtain rfl | ⟨c, hnext', hrest⟩ := Relation.ReflTransGen.cases_head hreached
    · exact hboth.1
    · obtain rfl : t = c := by
        have heq := hnext.symm.trans hnext'
        rwa [Except.ok.injEq, NthTurn.again.injEq] at heq
      exact hboth.2 s' hrest

section
variable {fuel : Nat} {s : NthState α}

theorem nthLoop_done {r : List α} (hturn : nthTurn pred proj nth s = .ok (.done r)) :
    nthLoop pred proj nth (fuel + 1) s = .ok r := by
  rw [nthLoop, hturn, exec_bind_ok]

theorem nthLoop_again {t : NthState α} (hturn : nthTurn pred proj nth s = .ok (.again t)) :
    nthLoop pred proj nth (fuel + 1) s = nthLoop pred proj nth fuel t := by
  rw [nthLoop, hturn, exec_bind_ok]

theorem found_done {r : List α} (hturn : nthTurn pred proj nth s = .ok (.done r))
    (hperm : s.list.Perm r) :
    Found pred proj nth (fuel + 1) s ↔
      ∃ v, PlacedIn (projected pred proj) r 0 r.length nth v := by
  constructor
  · intro hfound
    obtain ⟨r', v, hrun, _, hplaced⟩ := hfound
    obtain rfl : r = r' := Except.ok.inj ((nthLoop_done hturn).symm.trans hrun)
    exact ⟨v, hplaced⟩
  · exact fun ⟨v, hplaced⟩ => ⟨r, v, nthLoop_done hturn, hperm, hplaced⟩

theorem found_again {t : NthState α} (hturn : nthTurn pred proj nth s = .ok (.again t))
    (hperm : s.list.Perm t.list) :
    Found pred proj nth (fuel + 1) s ↔ Found pred proj nth fuel t := by
  unfold Found
  rw [nthLoop_again hturn]
  constructor
  · exact fun ⟨r, v, hrun, hr, hplaced⟩ => ⟨r, v, hrun, hperm.symm.trans hr, hplaced⟩
  · exact fun ⟨r, v, hrun, hr, hplaced⟩ => ⟨r, v, hrun, hperm.trans hr, hplaced⟩

theorem not_found_error {e : Stop} (hturn : nthTurn pred proj nth s = .error e) :
    ¬ Found pred proj nth (fuel + 1) s := by
  intro hfound
  obtain ⟨r, v, hrun, _⟩ := hfound
  rw [nthLoop, hturn, exec_bind_error] at hrun
  cases hrun

theorem not_found_done {r : List α} (hturn : nthTurn pred proj nth s = .ok (.done r))
    (hr : ∀ v, ¬ PlacedIn (projected pred proj) r 0 r.length nth v) :
    ¬ Found pred proj nth (fuel + 1) s := by
  intro hfound
  obtain ⟨r', v, hrun, _, hplaced⟩ := hfound
  obtain rfl : r = r' := Except.ok.inj ((nthLoop_done hturn).symm.trans hrun)
  exact hr v hplaced

/-- Behind the `continue` nothing is partitioned any more. -/
theorem continue_turn {r : List α} {i m g n : Nat}
    (hturn : nthTurn pred proj nth s =
      ((.ok (.found r i i g n) : Exec (Guarded α)) >>= resume pred proj nth s.last m))
    (hg : g + 1 < i) :
    nthTurn pred proj nth s =
      (placeMedian pred proj r (i + 1) m n >>= fun p =>
        narrow pred proj nth p.1 i (i + 1) s.last p.2) := by
  rw [hturn, exec_bind_ok, resume, finishTurn, partitionMedian, if_neg (by omega), exec_bind_ok]

/-- A range of one element is not searched. -/
theorem narrow_one (pred : κ → κ → Bool) (proj : α → κ) (r : List α) (i last n : Nat) :
    narrow pred proj i r i (i + 1) last n = .ok (.done r) ∨
      narrow pred proj i r i (i + 1) last n = .ok (.again ⟨r, i, i + 1⟩) := by
  rw [narrow, if_neg (by omega), alreadySorted]
  by_cases hnone : n = 0
  · rw [if_pos hnone, if_pos (Nat.lt_succ_self i), sortedFrom, if_pos rfl, exec_bind_ok, if_pos rfl]
    exact .inl rfl
  · rw [if_neg hnone, exec_bind_ok, if_neg (by simp), if_pos (Nat.lt_succ_self i)]
    exact .inr rfl

theorem nthTurn_one (l : List α) : nthTurn pred proj nth ⟨l, nth, nth + 1⟩ = .ok (.done l) := by
  have hlen : nth + 1 - nth = 1 := by omega
  rw [nthTurn, if_neg (by dsimp only; omega)]
  dsimp only
  rw [hlen]
  rfl

/-- With `nth` at the begin of the second part the run does not find it. -/
theorem continue_at_first (h : StrictWeakOrder pred) {l r : List α} {i m g n : Nat} {a u v x : α}
    (hat : AtContinue (projected pred proj) i s l i m x)
    (hex : Exchange (projected pred proj) l r i g m a u v) (hxu : projected pred proj x u = false)
    (hlast : i < s.last)
    (hturn : nthTurn pred proj i s =
      ((.ok (.found r i i g n) : Exec (Guarded α)) >>= resume pred proj i s.last m)) :
    ¬ Found pred proj i (fuel + 1) s := by
  have hrun := continue_turn hturn hex.before
  cases hplace : placeMedian pred proj r (i + 1) m n with
  | error e =>
    rw [hplace, exec_bind_error] at hrun
    exact not_found_error hrun
  | ok p =>
    have hr := placeMedian_at_first h hat hex hxu hlast hplace
    rw [hplace, exec_bind_ok] at hrun
    obtain hdone | hagain := narrow_one pred proj p.1 i s.last p.2
    · exact not_found_done (hrun.trans hdone) hr
    · intro hfound
      obtain ⟨r', w, hloop, _, hplaced⟩ := hfound
      rw [nthLoop_again (hrun.trans hagain)] at hloop
      cases fuel with
      | zero => cases hloop
      | succ fuel =>
        rw [nthLoop_done (nthTurn_one _), Except.ok.injEq] at hloop
        rw [← hloop] at hplaced
        exact hr w hplaced

/-- One turn behind the `continue`, with `nth` behind both elements that are left behind. -/
theorem canPlace_left_behind_iff (h : StrictWeakOrder pred) (hs : Holding nth s) {l r r' : List α}
    {i m g : Nat} {a u v x : α} (hat : AtContinue (projected pred proj) nth s l i m x)
    (hex : Exchange (projected pred proj) l r i g m a u v)
    (hleft : LeftBehind (projected pred proj) l r' i s.last m a) (hnth : i + 1 < nth) :
    CanPlace (projected pred proj) r' (i + 2) s.last nth ↔
      CanPlace (projected pred proj) s.list s.first s.last nth ∧
        Harmless (projected pred proj) nth s.last l i m := by
  have hlast := hs.lt_last
  obtain ⟨l', y, hsecond, hwithin, hy, hfront, _⟩ := hleft.left
  have hmedian : nth = i + 1 → i < m := fun heq => by omega
  rw [← canPlace_front_iff hfront (by omega),
    canPlace_both_left (h.projected proj) hex.first hwithin hy hnth hlast,
    canPlace_continue_iff h hs hat, hex.harmless_iff hsecond (by omega), and_iff_right hmedian]

/-- With `nth` behind the first of them the second is what is returned. -/
theorem placed_left_behind_iff (h : StrictWeakOrder pred) {l r r' : List α} {i m g : Nat}
    {a u v x : α} (hs : Holding (i + 1) s)
    (hat : AtContinue (projected pred proj) (i + 1) s l i m x)
    (hex : Exchange (projected pred proj) l r i g m a u v)
    (hleft : LeftBehind (projected pred proj) l r' i s.last m a) :
    (∃ w, PlacedIn (projected pred proj) r' 0 r'.length (i + 1) w) ↔
      CanPlace (projected pred proj) s.list s.first s.last (i + 1) ∧
        Harmless (projected pred proj) (i + 1) s.last l i m := by
  have hproj := h.projected proj
  rcases Nat.lt_or_ge i m with hgt | hge
  · obtain ⟨l', y, hsecond, hwithin, hy, _, hfront⟩ := hleft.left
    rw [placed_second_iff hproj hex.first hwithin hy (hfront hgt) hs.lt_last
      (hat.within.length_eq ▸ hs.last_le), canPlace_continue_iff h hs hat,
      hex.harmless_iff hsecond (Nat.lt_succ_self i), and_iff_right fun _ => hgt]
  · obtain ⟨k, z, hk, hka, hz, hlt⟩ := hleft.misplaced hge
    refine iff_of_false (fun hplaced => ?_) fun hboth => absurd (hboth.2.median rfl) (by omega)
    obtain ⟨w, hw⟩ := hplaced
    have hback := hw.before k a (Nat.zero_le k) (by omega) hka
    obtain rfl : z = w := eq_of_read hw.get hz
    rw [hlt] at hback
    cases hback

theorem harmlessTurn_iff {l : List α} {i m : Nat} (hcontinues : Continues pred proj nth s l i m)
    (honly : ∀ l' i' m', Continues pred proj nth s l' i' m' → l' = l ∧ i' = i ∧ m' = m) :
    HarmlessTurn pred proj nth s ↔ Harmless (projected pred proj) nth s.last l i m := by
  constructor
  · exact fun hall => hall l i m hcontinues
  · intro hone l' i' m' hcontinues'
    obtain ⟨rfl, rfl, rfl⟩ := honly l' i' m' hcontinues'
    exact hone

/-- The element is found exactly if every `continue` is harmless. -/
def FoundIff (pred : κ → κ → Bool) (proj : α → κ) (nth fuel : Nat) (s : NthState α) : Prop :=
  Found pred proj nth fuel s ↔
    CanPlace (projected pred proj) s.list s.first s.last nth ∧ HarmlessFrom pred proj nth s

theorem foundIff_turnDone (h : StrictWeakOrder pred) (hs : Holding nth s)
    (hdone : TurnDone pred proj nth s)
    (ih : ∀ t, Holding nth t → t.last - t.first < s.last - s.first →
      FoundIff pred proj nth fuel t) :
    FoundIff pred proj nth (fuel + 1) s := by
  have hproj := h.projected proj
  have hfirst := hs.first_le
  have hlast := hs.lt_last
  have hlength := hs.last_le
  obtain ⟨t, hturn, hprogress, hno⟩ := hdone
  have hturnHarmless : HarmlessTurn pred proj nth s :=
    fun l i m hcontinues => absurd hcontinues (hno l i m)
  rw [FoundIff]
  cases t with
  | done r =>
    obtain ⟨hwithin, v, hplaced⟩ := hprogress
    rw [found_done hturn hwithin.perm, harmlessFrom_done hturn,
      canPlace_within_iff (by omega) hwithin, and_iff_left hturnHarmless]
    constructor
    · intro hfoundAt
      obtain ⟨w, hw⟩ := hfoundAt
      exact hw.canPlace hproj hfirst hlast
    · exact fun hcan => ⟨v, hcan.placed hproj hplaced hfirst hlast⟩
  | again t =>
    obtain ⟨hwithin, hsep, hfirst', hnth, hnth', hlast', hsmaller⟩ := hprogress
    have hlen := hwithin.length_eq
    have hrest : FoundIff pred proj nth fuel t := ih t ⟨hnth, hnth', by omega⟩ hsmaller
    rw [FoundIff] at hrest
    rw [found_again hturn hwithin.perm, hrest, harmlessFrom_again hturn,
      and_iff_right hturnHarmless, canPlace_within_iff (by omega) hwithin,
      canPlace_separated hproj hsep hfirst' hnth hnth' hlast' (by omega)]

/-- Behind the `continue`, with `nth` behind the first element that is left there. -/
theorem foundIff_narrow (h : StrictWeakOrder pred) (hs : Holding nth s) {l r r' : List α}
    {i m g n' : Nat} {a u v x : α} (hat : AtContinue (projected pred proj) nth s l i m x)
    (hex : Exchange (projected pred proj) l r i g m a u v)
    (hleft : LeftBehind (projected pred proj) l r' i s.last m a) (hbehind : i < nth)
    (hperm : s.list.Perm r')
    (hone : HarmlessTurn pred proj nth s ↔ Harmless (projected pred proj) nth s.last l i m)
    (hrun : nthTurn pred proj nth s = narrow pred proj nth r' i (i + 1) s.last n')
    (ih : ∀ t, Holding nth t → t.last - t.first < s.last - s.first →
      FoundIff pred proj nth fuel t) :
    FoundIff pred proj nth (fuel + 1) s := by
  have hlast := hs.lt_last
  have hlength := hs.last_le
  have hlen := hperm.length_eq
  have hle := hat.le_nth
  have htwo := hat.two
  rw [FoundIff]
  rcases Nat.eq_or_lt_of_le (show i + 1 ≤ nth from hbehind) with hnext | hlater
  · -- what stands at `i + 1` is returned
    subst hnext
    rw [narrow, if_pos rfl] at hrun
    rw [found_done hrun hperm, harmlessFrom_done hrun, hone]
    exact placed_left_behind_iff h hs hat hex hleft
  · obtain ⟨b, hsorted, _, hright⟩ := alreadySorted_spec h proj n'
      (show s.last ≤ r'.length by omega) hle (show i + 1 < s.last by omega)
    rw [narrow, if_neg (by omega), hsorted, exec_bind_ok] at hrun
    cases b with
    | true =>
      have hv := List.getElem?_eq_getElem (show nth < r'.length by omega)
      have hplaced := ((hright rfl hlater).placedIn hbehind hlast hv).mono
        (Nat.le_succ (i + 1)) (Nat.le_refl s.last)
      rw [if_pos rfl] at hrun
      rw [found_done hrun hperm, harmlessFrom_done hrun, hone,
        ← canPlace_left_behind_iff h hs hat hex hleft hlater]
      constructor
      · intro hfoundAt
        obtain ⟨w, hw⟩ := hfoundAt
        exact hw.canPlace (h.projected proj) hlater hlast
      · exact fun hcan => ⟨_, hcan.placed (h.projected proj) hplaced hlater hlast⟩
    | false =>
      rw [if_neg (by simp), if_neg (by omega)] at hrun
      have hrest : FoundIff pred proj nth fuel ⟨r', i + 2, s.last⟩ :=
        ih _ ⟨hlater, hlast, by dsimp only; omega⟩ (by dsimp only; omega)
      rw [FoundIff] at hrest
      rw [found_again hrun hperm, hrest, harmlessFrom_again hrun, hone, ← and_assoc,
        canPlace_left_behind_iff h hs hat hex hleft hlater]

theorem foundIff_turnContinues (h : StrictWeakOrder pred) (hs : Holding nth s)
    (hcontinue : TurnContinues pred proj nth s)
    (ih : ∀ t, Holding nth t → t.last - t.first < s.last - s.first →
      FoundIff pred proj nth fuel t) :
    FoundIff pred proj nth (fuel + 1) s := by
  have hlast := hs.lt_last
  obtain ⟨l, i, m, x, n, budget, hcontinues, honly, hat, hturn⟩ := hcontinue
  have hone := harmlessTurn_iff hcontinues honly
  obtain ⟨hfault, hnone⟩ | ⟨g, r, a, u, v, hex, hxu, hfound⟩ := continue_cases h hs hat n budget
  · -- the search for a guard leaves the range
    rw [hfault, exec_bind_error] at hturn
    refine iff_of_false (not_found_error hturn) fun hboth => ?_
    exact hnone (hone.mp (hboth.2 s .refl)).guard
  rw [hfound] at hturn
  rcases Nat.eq_or_lt_of_le hat.le_nth with hhere | hbehind
  · subst hhere
    refine iff_of_false (continue_at_first h hat hex hxu hlast hturn) fun hboth => ?_
    exact Nat.lt_irrefl i (hone.mp (hboth.2 s .refl)).behind
  · obtain ⟨r', n', hplace, hperm, hleft⟩ :=
      placeMedian_leaves h hs hat hex hxu (by omega) (incSwaps n)
    have hrun := continue_turn hturn hex.before
    rw [hplace, exec_bind_ok] at hrun
    exact foundIff_narrow h hs hat hex hleft hbehind (hat.within.perm.trans hperm) hone hrun ih

theorem foundIff (h : StrictWeakOrder pred) (proj : α → κ) (fuel : Nat) {s : NthState α}
    (hs : Holding nth s) (hfuel : s.last - s.first < fuel) : FoundIff pred proj nth fuel s := by
  induction fuel generalizing s with
  | zero => exact absurd hfuel (Nat.not_lt_zero _)
  | succ fuel ih =>
    have hsmaller : ∀ t : NthState α, Holding nth t → t.last - t.first < s.last - s.first →
        FoundIff pred proj nth fuel t := fun t ht hlt => ih ht (by omega)
    obtain hdone | hcontinue := nthTurn_spec h proj hs
    · exact foundIff_turnDone h hs hdone hsmaller
    · exact foundIff_turnContinues h hs hcontinue hsmaller

end

/-! ## `nth_element` -/

/-- `r` is `l` rearranged, with the element that a sort puts at `nth` placed there. -/
structure Selected (lt : α → α → Bool) (l r : List α) (nth : Nat) : Prop where
  perm : l.Perm r
  placed : ∃ v, PlacedIn lt r 0 r.length nth v ∧
    ∀ m, l.Perm m → Sorted lt m → ∀ w, m[nth]? = some w → lt v w = false ∧ lt w v = false

theorem stretch_whole (l : List α) : stretch l 0 l.length = l := by
  rw [stretch, List.take_length, List.drop_zero]

theorem selected_iff {lt : α → α → Bool} (h : StrictWeakOrder lt) {l r : List α} :
    Selected lt l r nth ↔ l.Perm r ∧ ∃ v, PlacedIn lt r 0 r.length nth v := by
  constructor
  · exact fun hselected => ⟨hselected.perm, hselected.placed.imp fun v hv => hv.1⟩
  · intro hboth
    obtain ⟨hperm, v, hplaced⟩ := hboth
    have hrank : ∀ (m : List α) w, PlacedIn lt m 0 m.length nth w → Rank lt m nth w := by
      intro m w hw
      have hlen := (List.getElem?_eq_some_iff.mp hw.get).1
      have hr := hw.rank h (Nat.zero_le nth) hlen
      rwa [stretch_whole, Nat.sub_zero] at hr
    refine ⟨hperm, v, hplaced, fun m hm hsorted w hw => ?_⟩
    have hlen := (List.getElem?_eq_some_iff.mp hw).1
    have hin : SortedIn lt m 0 m.length := by
      intro a b x y _ hab hb hx hy
      obtain ⟨ha, rfl⟩ := List.getElem?_eq_some_iff.mp hx
      obtain ⟨hb', rfl⟩ := List.getElem?_eq_some_iff.mp hy
      exact List.pairwise_iff_getElem.mp hsorted a b ha hb' hab
    have hv := (hrank r v hplaced).perm (hperm.symm.trans hm)
    have hw' := hrank m w (hin.placedIn (Nat.zero_le nth) hlen hw)
    exact ⟨hv.not_lt h hw', hw'.not_lt h hv⟩

theorem nthLoop_mono {fuel : Nat} {s : NthState α} {r : List α}
    (hrun : nthLoop pred proj nth fuel s = .ok r) (extra : Nat) :
    nthLoop pred proj nth (fuel + extra) s = .ok r := by
  induction fuel generalizing s with
  | zero => cases hrun
  | succ fuel ih =>
    rw [Nat.add_right_comm, nthLoop]
    rw [nthLoop] at hrun
    obtain ⟨t, hturn, hrest⟩ := exec_bind_eq_ok.mp hrun
    rw [hturn, exec_bind_ok]
    cases t with
    | done l => exact hrest
    | again t => exact ih hrest

/-- Where nothing smaller than the median is in front the search leaves the range. -/
example : nthElement (fun a b : Nat => decide (a < b)) id 9 [0, 0, 0, 0, 0, 0, 0, 1] 7 =
    .error .fault := by decide

/-- No two elements are equivalent. -/
def Distinct (lt : α → α → Bool) (l : List α) : Prop :=
  l.Pairwise fun x y => lt x y = true ∨ lt y x = true

/-- A turn that gets to the `continue` has gathered two equivalent elements. -/
theorem AtContinue.not_distinct {lt : α → α → Bool} {s : NthState α} {l : List α} {i m : Nat}
    {x : α} (h : StrictWeakOrder lt) (hs : Holding nth s) (hat : AtContinue lt nth s l i m x) :
    ¬ Distinct lt s.list := by
  intro hdistinct
  have htwo := hat.two
  have hlt := hat.apart.lt_last
  have hlen := hat.within.length_eq
  have hlast := hs.last_le
  have hl : Distinct lt l :=
    (hat.within.perm.pairwise_iff fun {a b} hab => hab.symm).mp hdistinct
  have hequal : ∀ k y, s.first ≤ k → k < i → l[k]? = some y → lt x y = false ∧ lt y x = false := by
    intro k y hk hk' hy
    exact ⟨by simpa [notAbove] using hat.apart.left k y hk hk' hy, hat.least.get hk (by omega) hy⟩
  have hget := List.getElem?_eq_getElem (show s.first < l.length by omega)
  have hget' := List.getElem?_eq_getElem (show s.first + 1 < l.length by omega)
  obtain ⟨hxy, hyx⟩ := hequal _ _ (Nat.le_refl _) (by omega) hget
  obtain ⟨hxz, hzx⟩ := hequal _ _ (Nat.le_succ _) (by omega) hget'
  obtain hyz | hzy := List.pairwise_iff_getElem.mp hl s.first (s.first + 1) (by omega) (by omega)
    (Nat.lt_succ_self _)
  · rw [h.not_lt_trans hxz hyx] at hyz
    cases hyz
  · rw [h.not_lt_trans hxy hzx] at hzy
    cases hzy

/-- On them `nth_element` selects. -/
theorem harmlessFrom_distinct (h : StrictWeakOrder pred) (proj : α → κ) {l : List α}
    (hdistinct : Distinct (projected pred proj) l) (hnth : nth < l.length) :
    HarmlessFrom pred proj nth ⟨l, 0, l.length⟩ := by
  have hreached : ∀ s, Relation.ReflTransGen (Next pred proj nth) ⟨l, 0, l.length⟩ s →
      Holding nth s ∧ Distinct (projected pred proj) s.list := by
    intro s hrun
    induction hrun with
    | refl => exact ⟨⟨Nat.zero_le nth, hnth, Nat.le_refl _⟩, hdistinct⟩
    | @tail s t _ hnext ih =>
      obtain ⟨hs, hs'⟩ := ih
      obtain ⟨t', hturn, hprogress, _⟩ | ⟨l', i, m, x, _, _, _, _, hat, _⟩ := nthTurn_spec h proj hs
      · obtain rfl : .again t = t' := Except.ok.inj (hnext.symm.trans hturn)
        obtain ⟨hwithin, _, _, hle, hlt, hlast, _⟩ := hprogress
        have hlen := hwithin.length_eq
        have hlast' := hs.last_le
        exact ⟨⟨hle, hlt, by omega⟩,
          (hwithin.perm.pairwise_iff fun {a b} hab => hab.symm).mp hs'⟩
      · exact absurd hs' (hat.not_distinct (h.projected proj) hs)
  intro s hrun l' i m hcontinues
  obtain ⟨hs, hs'⟩ := hreached s hrun
  obtain ⟨_, _, _, hno⟩ | ⟨l'', i', m', x, _, _, _, _, hat, _⟩ := nthTurn_spec h proj hs
  · exact absurd hcontinues (hno l' i m)
  · exact absurd hs' (hat.not_distinct (h.projected proj) hs)

end EARanges.Algorithm
