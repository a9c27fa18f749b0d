import EARanges.Support.Selection

/-!
# Partitioning by scans

Two scans run towards each other over elements that have or have not a property and
exchange the first pair that is the wrong way round (`exchange_round`). Neither is guarded
by a bound: each needs an element to stop at.
-/
namespace EARanges.Support

variable {α : Type} {p : α → Bool} {l : List α}

/-- `while(p(*i)) ++i`. -/
def scanForward (p : α → Bool) (l : List α) : Nat → Nat → Exec Nat
  | 0, _ => .error .fuel
  | fuel + 1, i => do
    let x ← deref l i
    if p x then scanForward p l fuel (i + 1) else .ok i

/-- `while(p(*--j))`. -/
def scanBackward (p : α → Bool) (l : List α) : Nat → Exec Nat
  | 0 => .error .fault
  | j + 1 => do
    let x ← deref l j
    if p x then scanBackward p l j else .ok j

theorem scanForward_spec (fuel : Nat) {i stop : Nat} {x : α} (hle : i ≤ stop)
    (hx : l[stop]? = some x) (hstop : p x = false) (hfuel : stop < fuel + i) :
    ∃ j y, scanForward p l fuel i = .ok j ∧ i ≤ j ∧ j ≤ stop ∧ l[j]? = some y ∧ p y = false ∧
      ∀ k z, i ≤ k → k < j → l[k]? = some z → p z = true := by
  induction fuel generalizing i with
  | zero => omega
  | succ fuel ih =>
    have hlen := (List.getElem?_eq_some_iff.mp hx).1
    have hget := List.getElem?_eq_getElem (show i < l.length by omega)
    rw [scanForward, deref_of_some hget, exec_bind_ok]
    cases hp : p l[i] with
    | false =>
      rw [if_neg (by simp)]
      exact ⟨i, _, rfl, Nat.le_refl i, hle, hget, hp, fun k z hk hk' => by omega⟩
    | true =>
      have hne : i ≠ stop := by
        rintro rfl
        rw [hget, Option.some.injEq] at hx
        rw [hx, hstop] at hp
        cases hp
      obtain ⟨j, y, hrun, hj, hjs, hy, hyp, hpassed⟩ := ih (show i + 1 ≤ stop by omega) (by omega)
      rw [if_pos rfl]
      refine ⟨j, y, hrun, by omega, hjs, hy, hyp, fun k z hk hkj hz => ?_⟩
      by_cases hki : k = i
      · subst hki
        rw [hget, Option.some.injEq] at hz
        rw [← hz]
        exact hp
      · exact hpassed k z (by omega) hkj hz

theorem scanBackward_spec {stop j : Nat} {x : α} (hlt : stop < j) (hj : j ≤ l.length)
    (hx : l[stop]? = some x) (hstop : p x = false) :
    ∃ k y, scanBackward p l j = .ok k ∧ stop ≤ k ∧ k < j ∧ l[k]? = some y ∧ p y = false ∧
      ∀ n z, k < n → n < j → l[n]? = some z → p z = true := by
  induction j with
  | zero => omega
  | succ j ih =>
    have hget := List.getElem?_eq_getElem (show j < l.length by omega)
    rw [scanBackward, deref_of_some hget, exec_bind_ok]
    cases hp : p l[j] with
    | false =>
      rw [if_neg (by simp)]
      exact ⟨j, _, rfl, by omega, by omega, hget, hp, fun n z hn hn' => by omega⟩
    | true =>
      have hne : stop ≠ j := by
        rintro rfl
        rw [hget, Option.some.injEq] at hx
        rw [hx, hstop] at hp
        cases hp
      obtain ⟨k, y, hrun, hk, hkj, hy, hyp, hpassed⟩ := ih (by omega) (by omega)
      rw [if_pos rfl]
      refine ⟨k, y, hrun, hk, by omega, hy, hyp, fun n z hn hnj hz => ?_⟩
      by_cases hnj' : n = j
      · subst hnj'
        rw [hget, Option.some.injEq] at hz
        rw [← hz]
        exact hp
      · exact hpassed n z hn (by omega) hz

/-! ## Exchanging -/

/-- `[first, i)` has the property and `[j, last)` does not; `i` and `j` are inside. -/
structure Exchanging (p : α → Bool) (l : List α) (first i j last : Nat) : Prop where
  first_lt : first < i
  le : i ≤ j
  lt_last : j < last
  last_le : last ≤ l.length
  left : ∀ k x, first ≤ k → k < i → l[k]? = some x → p x = true
  right : ∀ k x, j ≤ k → k < last → l[k]? = some x → p x = false

/-- `[first, i)` has the property and `[i, last)` does not. -/
structure Exchanged (p : α → Bool) (l : List α) (first i last : Nat) : Prop where
  first_lt : first < i
  lt_last : i < last
  left : ∀ k x, first ≤ k → k < i → l[k]? = some x → p x = true
  right : ∀ k x, i ≤ k → k < last → l[k]? = some x → p x = false

theorem Exchanging.exchanged {first i last : Nat} (h : Exchanging p l first i i last) :
    Exchanged p l first i last := ⟨h.first_lt, h.lt_last, h.left, h.right⟩

/-- The scans meet, or stop at two elements to be exchanged. -/
theorem exchange_round {first i j last : Nat} (h : Exchanging p l first i j last) :
    ∃ i' j', scanForward p l (l.length + 1) i = .ok i' ∧
      scanBackward (fun x => !p x) l j = .ok j' ∧ i ≤ i' ∧
      ((j' + 1 = i' ∧ Exchanged p l first i' last) ∨
        (∃ x y, i' < j' ∧ j' < j ∧ l[i']? = some x ∧ l[j']? = some y ∧ p x = false ∧ p y = true ∧
          ∀ r, r[i']? = some y → r[j']? = some x → (∀ k, k ≠ i' → k ≠ j' → r[k]? = l[k]?) →
            r.length = l.length → Exchanging p r first (i' + 1) j' last)) := by
  obtain ⟨hfirst, hle, hlt, hlast, hleft, hright⟩ := h
  have hj := List.getElem?_eq_getElem (show j < l.length by omega)
  have hi := List.getElem?_eq_getElem (show i - 1 < l.length by omega)
  have hpj := hright j _ (Nat.le_refl j) hlt hj
  have hpi := hleft (i - 1) _ (by omega) (by omega) hi
  obtain ⟨i', x, hup, hi', hij', hx, hpx, hpassed⟩ :=
    scanForward_spec (l.length + 1) hle hj hpj (by omega)
  obtain ⟨j', y, hdown, hj', hjj', hy, hpy, hpassed'⟩ :=
    scanBackward_spec (p := fun x => !p x) (show i - 1 < j by omega) (by omega) hi
      (by rw [hpi]; rfl)
  have hpy : p y = true := by simpa using hpy
  refine ⟨i', j', hup, hdown, hi', ?_⟩
  have hne : i' ≠ j' := by
    rintro rfl
    rw [hx, Option.some.injEq] at hy
    rw [hy, hpy] at hpx
    cases hpx
  have hfront : ∀ k z, first ≤ k → k < i' → l[k]? = some z → p z = true := by
    intro k z hk hki hz
    rcases Nat.lt_or_ge k i with hold | hnew
    · exact hleft k z hk hold hz
    · exact hpassed k z hnew hki hz
  have hback : ∀ k z, j' < k → k < last → l[k]? = some z → p z = false := by
    intro k z hk hkl hz
    rcases Nat.lt_or_ge k j with hnew | hold
    · simpa using hpassed' k z hk hnew hz
    · exact hright k z hold hkl hz
  -- all between the scans has been passed by both, so they are next to each other
  rcases Nat.lt_or_ge j' i' with hmet | hopen
  · have hadjacent : j' + 1 = i' := by
      by_contra hgap
      obtain ⟨z, hz⟩ : ∃ z, l[j' + 1]? = some z := ⟨_, List.getElem?_eq_getElem (by omega)⟩
      have htrue := hfront _ z (by omega) (by omega) hz
      rw [hback _ z (Nat.lt_succ_self j') (by omega) hz] at htrue
      cases htrue
    exact .inl ⟨hadjacent, by omega, by omega, hfront,
      fun k z hk hkl hz => hback k z (by omega) hkl hz⟩
  · refine .inr ⟨x, y, by omega, hjj', hx, hy, hpx, hpy, fun r hri hrj hrest hrlen => ?_⟩
    refine ⟨by omega, by omega, by omega, by omega, fun k z hk hki hz => ?_,
      fun k z hk hkl hz => ?_⟩
    · by_cases hki' : k = i'
      · rw [hki', hri, Option.some.injEq] at hz
        rw [← hz]
        exact hpy
      · rw [hrest k hki' (by omega)] at hz
        exact hfront k z hk (by omega) hz
    · by_cases hkj : k = j'
      · rw [hkj, hrj, Option.some.injEq] at hz
        rw [← hz]
        exact hpx
      · rw [hrest k (by omega) hkj] at hz
        exact hback k z (by omega) hkl hz

end EARanges.Support
