import EARanges.Support.StableOrder

/-!
# Keeping the best so far

One element holds the place until a better one comes. With `lt` for `better` this is the
first minimal element; when elements that are equivalent replace each other as well, it is
the last maximal one. Of two newcomers only the better one has to be compared with the
holder (`Chosen.of_better`, `Chosen.of_not_better`).
-/
namespace EARanges.Support

variable {α : Type}

/-- What a comparison must satisfy for the holder to be better than everything before. -/
structure Replacing (better : α → α → Bool) : Prop where
  trans : ∀ {a b c}, better c b = true → better b a = true → better c a = true
  beats : ∀ {a b c}, better c a = true → better b a = false → better c b = true

theorem StrictWeakOrder.replacing_lt {lt : α → α → Bool} (h : StrictWeakOrder lt) :
    Replacing lt where
  trans hcb hba := h.trans _ _ _ hcb hba
  beats hca hba := h.lt_of_lt_of_not_lt hca hba

theorem StrictWeakOrder.replacing_not_lt {lt : α → α → Bool} (h : StrictWeakOrder lt) :
    Replacing fun b a => !lt b a where
  trans hcb hba := by
    simp only [Bool.not_eq_true'] at hcb hba ⊢
    exact h.not_lt_trans hba hcb
  beats {a b c} hca hba := by
    simp only [Bool.not_eq_true', Bool.not_eq_false'] at hca hba ⊢
    cases hcb : lt c b with
    | false => rfl
    | true =>
      rw [h.trans c b a hcb hba] at hca
      cases hca

/-- Of the first `n` elements the one at `i` holds the place: it is better than each before
it, and none behind is better. -/
structure Chosen (better : α → α → Bool) (l : List α) (n i : Nat) (x : α) : Prop where
  lt : i < n
  get : l[i]? = some x
  earlier : ∀ (j : Nat) y, j < i → l[j]? = some y → better x y = true
  later : ∀ (j : Nat) y, i < j → j < n → l[j]? = some y → better y x = false

variable {better : α → α → Bool} {l : List α} {n i : Nat} {m x y : α}

theorem chosen_first (hx : l[0]? = some x) : Chosen better l 1 0 x where
  lt := Nat.one_pos
  get := hx
  earlier j _ hj _ := absurd hj (Nat.not_lt_zero j)
  later j _ hj hj1 _ := by omega

theorem Chosen.keep (h : Chosen better l n i m) (hy : l[n]? = some y)
    (hnot : better y m = false) : Chosen better l (n + 1) i m where
  lt := Nat.lt_succ_of_lt h.lt
  get := h.get
  earlier := h.earlier
  later j z hij hj hz := by
    obtain hj | rfl := Nat.lt_succ_iff_lt_or_eq.mp hj
    · exact h.later j z hij hj hz
    · rw [Option.some.inj (hz.symm.trans hy)]
      exact hnot

section
variable (hbetter : Replacing better)
include hbetter

theorem Chosen.replace (h : Chosen better l n i m) (hy : l[n]? = some y)
    (hyes : better y m = true) : Chosen better l (n + 1) n y where
  lt := Nat.lt_succ_self n
  get := hy
  earlier j z hj hz := by
    obtain hlt | rfl | hgt := Nat.lt_trichotomy j i
    · exact hbetter.trans hyes (h.earlier j z hlt hz)
    · rw [Option.some.inj (hz.symm.trans h.get)]
      exact hyes
    · exact hbetter.beats hyes (h.later j z hgt hj hz)
  later j z hj hj1 _ := by omega

/-- The second newcomer is better than the first. -/
theorem Chosen.of_better (h : Chosen better l n i m) (hx : l[n]? = some x)
    (hy : l[n + 1]? = some y) (hyx : better y x = true) :
    Chosen better l (n + 2) (if better y m then n + 1 else i) (if better y m then y else m) := by
  cases hxm : better x m with
  | true =>
    rw [hbetter.trans hyx hxm]
    exact (h.replace hbetter hx hxm).replace hbetter hy hyx
  | false =>
    cases hym : better y m with
    | true => exact (h.keep hx hxm).replace hbetter hy hym
    | false => exact (h.keep hx hxm).keep hy hym

/-- The second newcomer is no better than the first. -/
theorem Chosen.of_not_better (h : Chosen better l n i m) (hx : l[n]? = some x)
    (hy : l[n + 1]? = some y) (hyx : better y x = false) :
    Chosen better l (n + 2) (if better x m then n else i) (if better x m then x else m) := by
  cases hxm : better x m with
  | true => exact (h.replace hbetter hx hxm).keep hy hyx
  | false =>
    refine (h.keep hx hxm).keep hy ?_
    cases hym : better y m with
    | false => rfl
    | true =>
      rw [hbetter.beats hym hxm] at hyx
      cases hyx

end

/-! ## The first minimal and the last maximal element -/

def FirstMinimal (lt : α → α → Bool) (l : List α) (i : Nat) : Prop :=
  ∃ x, l[i]? = some x ∧ (∀ y ∈ l, lt y x = false) ∧
    ∀ (j : Nat) y, j < i → l[j]? = some y → lt x y = true

def LastMaximal (lt : α → α → Bool) (l : List α) (i : Nat) : Prop :=
  ∃ x, l[i]? = some x ∧ (∀ y ∈ l, lt x y = false) ∧
    ∀ (j : Nat) y, i < j → l[j]? = some y → lt y x = true

variable {lt : α → α → Bool}

theorem Chosen.firstMinimal (hlt : StrictWeakOrder lt) (h : Chosen lt l l.length i x) :
    FirstMinimal lt l i := by
  refine ⟨x, h.get, fun y hy => ?_, h.earlier⟩
  obtain ⟨j, hy⟩ := List.getElem?_of_mem hy
  obtain ⟨hj, -⟩ := List.getElem?_eq_some_iff.mp hy
  obtain hji | rfl | hij := Nat.lt_trichotomy j i
  · exact hlt.asymm (h.earlier j y hji hy)
  · rw [Option.some.inj (hy.symm.trans h.get)]
    exact hlt.not_self x
  · exact h.later j y hij hj hy

theorem Chosen.lastMaximal (hlt : StrictWeakOrder lt)
    (h : Chosen (fun b a => !lt b a) l l.length i x) : LastMaximal lt l i := by
  have hlater : ∀ (j : Nat) y, i < j → l[j]? = some y → lt y x = true := by
    intro j y hij hy
    obtain ⟨hj, -⟩ := List.getElem?_eq_some_iff.mp hy
    simpa using h.later j y hij hj hy
  refine ⟨x, h.get, fun y hy => ?_, hlater⟩
  obtain ⟨j, hy⟩ := List.getElem?_of_mem hy
  obtain hji | rfl | hij := Nat.lt_trichotomy j i
  · simpa using h.earlier j y hji hy
  · rw [Option.some.inj (hy.symm.trans h.get)]
    exact hlt.not_self x
  · exact hlt.asymm (hlater j y hij hy)

theorem FirstMinimal.unique {j : Nat} (hi : FirstMinimal lt l i) (hj : FirstMinimal lt l j) :
    i = j := by
  obtain ⟨x, hx, hleastx, hfirstx⟩ := hi
  obtain ⟨y, hy, hleasty, hfirsty⟩ := hj
  obtain hlt | heq | hgt := Nat.lt_trichotomy i j
  · have hless := hfirsty i x hlt hx
    rw [hleastx y (List.mem_of_getElem? hy)] at hless
    cases hless
  · exact heq
  · have hless := hfirstx j y hgt hy
    rw [hleasty x (List.mem_of_getElem? hx)] at hless
    cases hless

theorem LastMaximal.unique {j : Nat} (hi : LastMaximal lt l i) (hj : LastMaximal lt l j) :
    i = j := by
  obtain ⟨x, hx, hmostx, hlastx⟩ := hi
  obtain ⟨y, hy, hmosty, hlasty⟩ := hj
  obtain hlt | heq | hgt := Nat.lt_trichotomy i j
  · have hless := hlastx j y hlt hy
    rw [hmosty x (List.mem_of_getElem? hx)] at hless
    cases hless
  · exact heq
  · have hless := hlasty i x hgt hx
    rw [hmostx y (List.mem_of_getElem? hy)] at hless
    cases hless

/-! ## One newcomer after another -/

/-- Who holds the place at the end, `m` first. -/
def held (better : α → α → Bool) (m : α) (l : List α) : α :=
  l.foldl (fun m y => if better y m then y else m) m

theorem held_cons (better : α → α → Bool) (m y : α) (l : List α) :
    held better m (y :: l) = held better (if better y m then y else m) l := rfl

/-- One newcomer. -/
theorem Chosen.turn (hbetter : Replacing better) (h : Chosen better l n i m)
    (hy : l[n]? = some y) :
    Chosen better l (n + 1) (if better y m then n else i) (if better y m then y else m) := by
  cases hym : better y m with
  | true => exact h.replace hbetter hy hym
  | false => exact h.keep hy hym

theorem Chosen.held (hbetter : Replacing better) (h : Chosen better l n i m)
    (hn : n ≤ l.length) : ∃ j, Chosen better l l.length j (held better m (l.drop n)) := by
  obtain ⟨rest, hrest⟩ : ∃ rest, l.drop n = rest := ⟨_, rfl⟩
  rw [hrest]
  induction rest generalizing n i m with
  | nil =>
    have hend : n = l.length := Nat.le_antisymm hn (List.drop_eq_nil_iff.mp hrest)
    subst hend
    exact ⟨i, h⟩
  | cons y rest ih =>
    have hy : l[n]? = some y := by
      rw [← Nat.add_zero n, ← List.getElem?_drop, hrest]
      rfl
    have hlt : n < l.length := (List.getElem?_eq_some_iff.mp hy).1
    have htail : l.drop (n + 1) = rest := by
      rw [← List.tail_drop, hrest]
      rfl
    exact ih (h.turn hbetter hy) hlt htail

end EARanges.Support
