import EARanges.Support.InPlace
import EARanges.Support.Occurrence

/-!
# `search`

algorithm/search.hpp. `uncounted` and `recounted` hand an iterator back as it is. The
sized implementation leaves out the check for the end of the source while it matches,
since it has counted that the pattern fits.
-/
namespace EARanges.Algorithm
open EARanges.Support

variable {α β γ δ : Type}

/-- How matching the rest of a pattern ends: with the pattern, with the source, or on two
elements that do not match. -/
inductive Attempt where
  | found (m1 : Nat)
  | exhausted (m1 : Nat)
  | mismatch
  deriving DecidableEq, Repr

section
variable (test : α → β → Bool) (xs : List α) (ys : List β)

/-- The inner loop, once `*m1` matches `*m2`; `checked` says whether it compares `m1` with
`end1`. -/
def matchForward (checked : Bool) : Nat → Nat → Nat → Exec Attempt
  | 0, _, _ => .error .fuel
  | fuel + 1, m1, m2 => do
    let m2 ← incr ys m2
    if m2 = ys.length then .ok (.found m1)
    else
      let m1 ← incr xs m1
      if checked && m1 = xs.length then .ok (.exhausted m1)
      else
        let x ← deref xs m1
        let y ← deref ys m2
        if !test x y then .ok .mismatch else matchForward checked fuel m1 m2

def searchSizedLoop : Nat → Nat → Nat → Exec (Nat × Nat)
  | 0, _, _ => .error .fuel
  | fuel + 1, begin1, d1 => do
    -- no room left: `ranges::next(begin1, end1)`
    if d1 < ys.length then .ok (xs.length, xs.length)
    else
      let x ← deref xs begin1
      let y ← deref ys 0
      if test x y then
        match ← matchForward test xs ys false ys.length begin1 0 with
        | .found m1 =>
          let m1 ← incr xs m1
          .ok (begin1, m1)
        -- a mismatch: the unchecked loop never reports the source exhausted
        | _ =>
          let begin1 ← incr xs begin1
          searchSizedLoop fuel begin1 (d1 - 1)
      else
        let begin1 ← incr xs begin1
        searchSizedLoop fuel begin1 (d1 - 1)

def searchSizedImpl : Exec (Nat × Nat) := searchSizedLoop test xs ys (xs.length + 1) 0 xs.length

def searchLoop : Nat → Nat → Exec (Nat × Nat)
  | 0, _ => .error .fuel
  | fuel + 1, begin1 => do
    if begin1 = xs.length then .ok (begin1, begin1)
    else
      let x ← deref xs begin1
      let y ← deref ys 0
      if test x y then
        match ← matchForward test xs ys true ys.length begin1 0 with
        | .found m1 =>
          let m1 ← incr xs m1
          .ok (begin1, m1)
        | .exhausted m1 => .ok (m1, m1)
        | .mismatch =>
          let begin1 ← incr xs begin1
          searchLoop fuel begin1
      else
        let begin1 ← incr xs begin1
        searchLoop fuel begin1

def searchImpl : Exec (Nat × Nat) := searchLoop test xs ys (xs.length + 1) 0

end

/-- `sized` says that both ranges know their length. -/
def search (pred : γ → δ → Bool) (proj1 : α → γ) (proj2 : β → δ) (sized : Bool) (xs : List α)
    (ys : List β) : Exec (Nat × Nat) :=
  if ys.length = 0 then .ok (0, 0)
  else if sized then searchSizedImpl (fun x y => pred (proj1 x) (proj2 y)) xs ys
  else searchImpl (fun x y => pred (proj1 x) (proj2 y)) xs ys

/-! ## One attempt -/

variable {test : α → β → Bool} {xs : List α} {ys : List β}

/-- What an attempt to match the pattern at `i` settles. -/
def Attempt.Settles (test : α → β → Bool) (xs : List α) (ys : List β) (i : Nat) :
    Attempt → Prop
  | .found m1 => OccursAt test xs ys i ∧ m1 + 1 = i + ys.length
  | .exhausted m1 => m1 = xs.length ∧ xs.length < i + ys.length
  | .mismatch => ¬ OccursAt test xs ys i

theorem Attempt.Settles.found_lt {i m1 : Nat} (h : (Attempt.found m1).Settles test xs ys i) :
    m1 < xs.length := by
  have hroom := h.1.room
  have hm1 := h.2
  omega

/-- Everything up to `m2` matches, so the pattern fits where it is exhausted; with room for
all of it the source needs no check. -/
theorem matchForward_spec {checked : Bool} {i : Nat}
    (hroom : checked = false → i + ys.length ≤ xs.length) (fuel m2 : Nat)
    (hm1 : i + m2 < xs.length) (hm2 : m2 < ys.length) (hfuel : ys.length ≤ m2 + fuel)
    (hsame : ∀ (j : Nat) x y, j ≤ m2 → xs[i + j]? = some x → ys[j]? = some y →
      test x y = true) :
    ∃ a, matchForward test xs ys checked fuel (i + m2) m2 = .ok a ∧ a.Settles test xs ys i := by
  induction fuel generalizing m2 with
  | zero => omega
  | succ fuel ih =>
    rw [matchForward, incr_ok hm2, exec_bind_ok]
    by_cases hend : m2 + 1 = ys.length
    · rw [if_pos hend]
      refine ⟨_, rfl, ⟨by omega, fun j x y hx hy => ?_⟩, by omega⟩
      obtain ⟨hj, -⟩ := List.getElem?_eq_some_iff.mp hy
      exact hsame j x y (by omega) hx hy
    · rw [if_neg hend, incr_ok hm1, exec_bind_ok]
      by_cases hsource : (checked && decide (i + m2 + 1 = xs.length)) = true
      · rw [if_pos hsource]
        have hlast := of_decide_eq_true (Bool.and_eq_true_iff.mp hsource).2
        exact ⟨_, rfl, hlast, by omega⟩
      · have hin : i + (m2 + 1) < xs.length := lt_of_unchecked hm1 hsource fun h => by
          have := hroom h
          omega
        have hpat : m2 + 1 < ys.length := by omega
        rw [if_neg hsource, Nat.add_assoc, deref_eq hin, exec_bind_ok, deref_eq hpat,
          exec_bind_ok]
        cases htest : test xs[i + (m2 + 1)] ys[m2 + 1] with
        | false =>
          exact ⟨_, rfl, not_occursAt_of_getElem hin hpat rfl htest⟩
        | true =>
          refine ih (m2 + 1) hin hpat (by omega) fun j x y hj hx hy => ?_
          obtain hj | rfl := Nat.le_succ_iff.mp hj
          · exact hsame j x y hj hx hy
          · exact test_of_read hin hpat htest hx hy

/-- An attempt that starts on two elements that match. -/
theorem matchForward_start {checked : Bool} {i : Nat}
    (hroom : checked = false → i + ys.length ≤ xs.length) (hi : i < xs.length)
    (hpat : 0 < ys.length) (htest : test xs[i] ys[0] = true) :
    ∃ a, matchForward test xs ys checked ys.length i 0 = .ok a ∧ a.Settles test xs ys i := by
  refine matchForward_spec hroom ys.length 0 hi hpat (by omega) fun j x y hj hx hy => ?_
  obtain rfl := Nat.le_zero.mp hj
  exact test_of_read hi hpat htest hx hy

/-- A search compares the first elements at `i`. It goes on behind them where they do not match,
and with what an attempt settles where they do. -/
theorem matchAt_spec {ρ : Type} {P : Exec ρ → Prop} {checked : Bool} {i : Nat}
    (hroom : checked = false → i + ys.length ≤ xs.length) (hi : i < xs.length)
    (hpat : 0 < ys.length) {settled : Attempt → Exec ρ} {next : Nat → Exec ρ}
    (hsettled : ∀ a : Attempt, a.Settles test xs ys i → P (settled a))
    (hnext : ¬ OccursAt test xs ys i → P (next (i + 1))) :
    P (do
      let x ← deref xs i
      let y ← deref ys 0
      if test x y then
        let a ← matchForward test xs ys checked ys.length i 0
        settled a
      else
        let i ← incr xs i
        next i) := by
  rw [deref_eq hi, exec_bind_ok, deref_eq hpat, exec_bind_ok]
  cases htest : test xs[i] ys[0] with
  | false =>
    rw [if_neg Bool.false_ne_true, incr_ok hi, exec_bind_ok]
    exact hnext (not_occursAt_of_getElem hi hpat (Nat.add_zero _) htest)
  | true =>
    obtain ⟨a, hrun, ha⟩ := matchForward_start hroom hi hpat htest
    rw [if_pos rfl, hrun, exec_bind_ok]
    exact hsettled a ha

/-! ## The two searches -/

/-- No occurrence before `begin1` and none at it leaves none before the next iterator. -/
theorem no_occurrence_succ {begin1 : Nat} (hbelow : ∀ k < begin1, ¬ OccursAt test xs ys k)
    (h : ¬ OccursAt test xs ys begin1) : ∀ k < begin1 + 1, ¬ OccursAt test xs ys k := by
  intro k hk
  obtain hk | rfl := Nat.lt_succ_iff_lt_or_eq.mp hk
  · exact hbelow k hk
  · exact h

/-- Where the rest of the source is shorter than the pattern, no occurrence is left. -/
theorem firstOccurrence_end {begin1 : Nat} (hbelow : ∀ k < begin1, ¬ OccursAt test xs ys k)
    (hshort : xs.length < begin1 + ys.length) :
    FirstOccurrence test xs ys (xs.length, xs.length) := by
  refine .inr ⟨rfl, fun k => ?_⟩
  by_cases hk : k < begin1
  · exact hbelow k hk
  · exact not_occursAt_of_short (by omega)

theorem searchSizedLoop_spec (hpat : 0 < ys.length) (fuel begin1 d1 : Nat)
    (hd : begin1 + d1 = xs.length) (hfuel : d1 < fuel)
    (hbelow : ∀ k < begin1, ¬ OccursAt test xs ys k) :
    ∃ r, searchSizedLoop test xs ys fuel begin1 d1 = .ok r ∧ FirstOccurrence test xs ys r := by
  induction fuel generalizing begin1 d1 with
  | zero => omega
  | succ fuel ih =>
    rw [searchSizedLoop]
    by_cases hlt : d1 < ys.length
    · rw [if_pos hlt]
      exact ⟨_, rfl, firstOccurrence_end hbelow (by omega)⟩
    · have hin : begin1 < xs.length := by omega
      have hnext (h : ¬ OccursAt test xs ys begin1) :
          ∃ r, searchSizedLoop test xs ys fuel (begin1 + 1) (d1 - 1) = .ok r ∧
            FirstOccurrence test xs ys r :=
        ih (begin1 + 1) (d1 - 1) (by omega) (by omega) (no_occurrence_succ hbelow h)
      rw [if_neg hlt]
      refine matchAt_spec (P := fun e => ∃ r, e = .ok r ∧ FirstOccurrence test xs ys r)
        (fun _ => by omega) hin hpat (fun a ha => ?_) hnext
      cases a with
      | found m1 =>
        dsimp only
        rw [incr_ok ha.found_lt, exec_bind_ok, ha.2]
        exact ⟨_, rfl, .inl ⟨begin1, rfl, ha.1, hbelow⟩⟩
      | exhausted m1 => exact absurd ha.2 (by omega)
      | mismatch =>
        dsimp only
        rw [incr_ok hin, exec_bind_ok]
        exact hnext ha

theorem searchLoop_spec (hpat : 0 < ys.length) (fuel begin1 : Nat)
    (hle : begin1 ≤ xs.length) (hfuel : xs.length < begin1 + fuel)
    (hbelow : ∀ k < begin1, ¬ OccursAt test xs ys k) :
    ∃ r, searchLoop test xs ys fuel begin1 = .ok r ∧ FirstOccurrence test xs ys r := by
  induction fuel generalizing begin1 with
  | zero => omega
  | succ fuel ih =>
    rw [searchLoop]
    by_cases hend : begin1 = xs.length
    · rw [if_pos hend, hend]
      exact ⟨_, rfl, firstOccurrence_end hbelow (by omega)⟩
    · have hin : begin1 < xs.length := by omega
      have hnext (h : ¬ OccursAt test xs ys begin1) :
          ∃ r, searchLoop test xs ys fuel (begin1 + 1) = .ok r ∧ FirstOccurrence test xs ys r :=
        ih (begin1 + 1) (by omega) (by omega) (no_occurrence_succ hbelow h)
      rw [if_neg hend]
      refine matchAt_spec (P := fun e => ∃ r, e = .ok r ∧ FirstOccurrence test xs ys r)
        Bool.noConfusion hin hpat (fun a ha => ?_) hnext
      cases a with
      | found m1 =>
        dsimp only
        rw [incr_ok ha.found_lt, exec_bind_ok, ha.2]
        exact ⟨_, rfl, .inl ⟨begin1, rfl, ha.1, hbelow⟩⟩
      | exhausted m1 =>
        dsimp only
        rw [ha.1]
        exact ⟨_, rfl, firstOccurrence_end hbelow ha.2⟩
      | mismatch =>
        dsimp only
        rw [incr_ok hin, exec_bind_ok]
        exact hnext ha

/-- Both searches return the first occurrence. -/
theorem search_firstOccurrence (pred : γ → δ → Bool) (proj1 : α → γ) (proj2 : β → δ)
    (sized : Bool) (xs : List α) (ys : List β) :
    ∃ r, search pred proj1 proj2 sized xs ys = .ok r ∧
      FirstOccurrence (fun x y => pred (proj1 x) (proj2 y)) xs ys r := by
  have hbelow (test : α → β → Bool) : ∀ k < 0, ¬ OccursAt test xs ys k := by
    intro k hk
    omega
  rw [search]
  split
  next hnil =>
    obtain rfl := List.eq_nil_of_length_eq_zero hnil
    exact ⟨_, rfl, .inl ⟨0, rfl, occursAt_nil (Nat.zero_le _), hbelow _⟩⟩
  next hnil =>
    have hpat : 0 < ys.length := Nat.pos_of_ne_zero hnil
    split
    · exact searchSizedLoop_spec hpat _ _ _ (by omega) (by omega) (hbelow _)
    · exact searchLoop_spec hpat _ _ (by omega) (by omega) (hbelow _)

end EARanges.Algorithm
