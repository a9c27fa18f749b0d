import EARanges.Algorithm.Rotate
import EARanges.Algorithm.Search

/-!
# `find_end`

algorithm/find_end.hpp. The forward overload searches on after every match and keeps the
last one; the others search from the end. Only the elements of the source are projected.
-/
namespace EARanges.Algorithm
open EARanges.Support

variable {α β γ δ : Type}

section
variable (test : α → β → Bool) (xs : List α) (ys : List β)

/-- `found ? res_begin : it`, and so for the end, is `res.getD (it, it)`. -/
def findEndForwardLoop : Nat → Nat → Option (Nat × Nat) → Exec (Nat × Nat)
  | 0, _, _ => .error .fuel
  | fuel + 1, begin1, res => do
    if begin1 = xs.length then .ok (res.getD (begin1, begin1))
    else
      let x ← deref xs begin1
      let y ← deref ys 0
      if test x y then
        match ← matchForward test xs ys true ys.length begin1 0 with
        | .found tmp1 =>
          let resEnd ← incr xs tmp1
          let next ← incr xs begin1
          findEndForwardLoop fuel next (some (begin1, resEnd))
        | .exhausted tmp1 => .ok (res.getD (tmp1, tmp1))
        | .mismatch =>
          let begin1 ← incr xs begin1
          findEndForwardLoop fuel begin1 res
      else
        let begin1 ← incr xs begin1
        findEndForwardLoop fuel begin1 res

def findEndForward : Exec (Nat × Nat) :=
  if ys.length = 0 then .ok (xs.length, xs.length)
  else findEndForwardLoop test xs ys (xs.length + 1) 0 none

/-- The inner `do` loop, once `*m1` matches `*m2`; `checked` says whether it compares `m1`
with `begin1`. -/
def matchBackward (checked : Bool) : Nat → Nat → Nat → Exec Attempt
  | 0, _, _ => .error .fuel
  | fuel + 1, m1, m2 =>
    if m2 = 0 then .ok (.found m1)
    else if checked && m1 = 0 then .ok (.exhausted m1)
    else do
      let m1 ← stepBack m1
      let m2 ← stepBack m2
      let x ← deref xs m1
      let y ← deref ys m2
      if test x y then matchBackward checked fuel m1 m2 else .ok .mismatch

/-- The outer loop of the other two overloads, which stops at `start`. -/
def findEndBackwardLoop (checked : Bool) (start : Nat) : Nat → Nat → Exec (Nat × Nat)
  | 0, _ => .error .fuel
  | fuel + 1, l1 => do
    if l1 = start then .ok (xs.length, xs.length)
    else
      let l2 ← stepBack ys.length
      let l1 ← stepBack l1
      let x ← deref xs l1
      let y ← deref ys l2
      if !test x y then findEndBackwardLoop checked start fuel l1
      else
        match ← matchBackward test xs ys checked ys.length l1 l2 with
        | .found m1 =>
          let l1 ← incr xs l1
          .ok (m1, l1)
        | .exhausted _ => .ok (xs.length, xs.length)
        | .mismatch => findEndBackwardLoop checked start fuel l1

def findEndBidirectional : Exec (Nat × Nat) :=
  if ys.length = 0 then .ok (xs.length, xs.length)
  else findEndBackwardLoop test xs ys true 0 (xs.length + 1) xs.length

def findEndRandomAccess : Exec (Nat × Nat) :=
  if ys.length = 0 then .ok (xs.length, xs.length)
  else if xs.length < ys.length then .ok (xs.length, xs.length)
  else findEndBackwardLoop test xs ys false (ys.length - 1) (xs.length + 1) xs.length

end

/-- The overload both iterators allow. -/
def findEnd (pred : γ → β → Bool) (proj : α → γ) (tag1 tag2 : IteratorTag) (xs : List α)
    (ys : List β) : Exec (Nat × Nat) :=
  match tag1, tag2 with
  | .randomAccess, .randomAccess => findEndRandomAccess (fun x y => pred (proj x) y) xs ys
  | .forward, _ => findEndForward (fun x y => pred (proj x) y) xs ys
  | _, .forward => findEndForward (fun x y => pred (proj x) y) xs ys
  | _, _ => findEndBidirectional (fun x y => pred (proj x) y) xs ys

variable {test : α → β → Bool} {xs : List α} {ys : List β}

/-! ## Forward -/

/-- What is kept is the last occurrence before `begin1`, if there is one. -/
def Kept (test : α → β → Bool) (xs : List α) (ys : List β) (begin1 : Nat) :
    Option (Nat × Nat) → Prop
  | none => ∀ k < begin1, ¬ OccursAt test xs ys k
  | some r => ∃ i, r = (i, i + ys.length) ∧ i < begin1 ∧ OccursAt test xs ys i ∧
      ∀ k, i < k → k < begin1 → ¬ OccursAt test xs ys k

theorem Kept.skip {begin1 : Nat} {res : Option (Nat × Nat)} (h : Kept test xs ys begin1 res)
    (hnot : ¬ OccursAt test xs ys begin1) : Kept test xs ys (begin1 + 1) res := by
  cases res with
  | none => exact no_occurrence_succ h hnot
  | some r =>
    obtain ⟨i, hr, hi, hocc, hbetween⟩ := h
    refine ⟨i, hr, by omega, hocc, fun k hik hk => ?_⟩
    obtain hk | rfl := Nat.lt_succ_iff_lt_or_eq.mp hk
    · exact hbetween k hik hk
    · exact hnot

/-- Where the rest of the source is shorter than the pattern, what is kept is the answer. -/
theorem Kept.last {begin1 : Nat} {res : Option (Nat × Nat)} (h : Kept test xs ys begin1 res)
    (hshort : xs.length < begin1 + ys.length) :
    LastOccurrence test xs ys (res.getD (xs.length, xs.length)) := by
  cases res with
  | none =>
    refine .inr ⟨rfl, fun k => ?_⟩
    by_cases hk : k < begin1
    · exact h k hk
    · exact not_occursAt_of_short (by omega)
  | some r =>
    obtain ⟨i, rfl, hi, hocc, hbetween⟩ := h
    refine .inl ⟨i, rfl, hocc, fun k hik => ?_⟩
    by_cases hk : k < begin1
    · exact hbetween k hik hk
    · exact not_occursAt_of_short (by omega)

theorem findEndForwardLoop_spec (hpat : 0 < ys.length) (fuel begin1 : Nat)
    (res : Option (Nat × Nat)) (hle : begin1 ≤ xs.length) (hfuel : xs.length < begin1 + fuel)
    (hkept : Kept test xs ys begin1 res) :
    ∃ r, findEndForwardLoop test xs ys fuel begin1 res = .ok r ∧
      LastOccurrence test xs ys r := by
  induction fuel generalizing begin1 res with
  | zero => omega
  | succ fuel ih =>
    rw [findEndForwardLoop]
    by_cases hend : begin1 = xs.length
    · rw [if_pos hend, hend]
      exact ⟨_, rfl, hkept.last (by omega)⟩
    · have hin : begin1 < xs.length := by omega
      have hnext (h : ¬ OccursAt test xs ys begin1) :
          ∃ r, findEndForwardLoop test xs ys fuel (begin1 + 1) res = .ok r ∧
            LastOccurrence test xs ys r :=
        ih (begin1 + 1) res (by omega) (by omega) (hkept.skip h)
      rw [if_neg hend]
      refine matchAt_spec (P := fun e => ∃ r, e = .ok r ∧ LastOccurrence test xs ys r)
        Bool.noConfusion hin hpat (fun a ha => ?_) hnext
      cases a with
      | found tmp1 =>
        dsimp only
        rw [incr_ok ha.found_lt, exec_bind_ok, incr_ok hin, exec_bind_ok, ha.2]
        refine ih _ _ (by omega) (by omega) ⟨begin1, rfl, by omega, ha.1, ?_⟩
        intro k hk hk'
        omega
      | exhausted tmp1 =>
        dsimp only
        rw [ha.1]
        exact ⟨_, rfl, hkept.last ha.2⟩
      | mismatch =>
        dsimp only
        rw [incr_ok hin, exec_bind_ok]
        exact hnext ha

/-! ## Backward -/

/-- What an attempt settles that matches the pattern backward from `l1`. -/
def Attempt.SettlesBack (test : α → β → Bool) (xs : List α) (ys : List β) (l1 : Nat) :
    Attempt → Prop
  | .found m1 => OccursAt test xs ys m1 ∧ m1 + ys.length = l1 + 1
  | .exhausted _ => l1 + 1 < ys.length
  | .mismatch => ∀ k, k + ys.length = l1 + 1 → ¬ OccursAt test xs ys k

/-- Everything from `m2` on matches. The pattern may start in front of the source, unless
`l1` has left it room. -/
theorem matchBackward_spec {checked : Bool} {l1 : Nat} (hl1 : l1 < xs.length)
    (hroom : checked = false → ys.length ≤ l1 + 1) (fuel m1 m2 : Nat)
    (hm : m1 + ys.length = l1 + 1 + m2) (hm2 : m2 < ys.length) (hfuel : m2 < fuel)
    (hsame : ∀ (j : Nat) x y, xs[m1 + j]? = some x → ys[m2 + j]? = some y → test x y = true) :
    ∃ a, matchBackward test xs ys checked fuel m1 m2 = .ok a ∧
      a.SettlesBack test xs ys l1 := by
  induction fuel generalizing m1 m2 with
  | zero => omega
  | succ fuel ih =>
    rw [matchBackward]
    cases m2 with
    | zero =>
      rw [if_pos rfl]
      refine ⟨_, rfl, ⟨by omega, fun j x y hx hy => ?_⟩, by omega⟩
      exact hsame j x y hx (by rwa [Nat.zero_add])
    | succ m2 =>
      rw [if_neg (Nat.succ_ne_zero m2)]
      by_cases hsource : (checked && decide (m1 = 0)) = true
      · rw [if_pos hsource]
        have hfirst := of_decide_eq_true (Bool.and_eq_true_iff.mp hsource).2
        have hshort : l1 + 1 < ys.length := by omega
        exact ⟨_, rfl, hshort⟩
      · have hpos : m1 ≠ 0 := by
          cases checked with
          | false =>
            have := hroom rfl
            omega
          | true => simpa using hsource
        obtain ⟨m1, rfl⟩ := Nat.exists_eq_succ_of_ne_zero hpos
        have hin : m1 < xs.length := by omega
        have hpat : m2 < ys.length := by omega
        rw [if_neg hsource, stepBack_succ, exec_bind_ok, stepBack_succ, exec_bind_ok,
          deref_eq hin, exec_bind_ok, deref_eq hpat, exec_bind_ok]
        cases htest : test xs[m1] ys[m2] with
        | false =>
          refine ⟨_, rfl, fun k hk => ?_⟩
          have hlies : k + m2 = m1 := by omega
          exact not_occursAt_of_getElem hin hpat hlies htest
        | true =>
          refine ih m1 m2 (by omega) hpat (by omega) fun j x y hx hy => ?_
          cases j with
          | zero => exact test_of_read hin hpat htest hx hy
          | succ j =>
            refine hsame j x y ?_ ?_
            · rw [← hx]
              congr 1
              omega
            · rw [← hy]
              congr 1
              omega

/-- No occurrence ends behind `l1`. -/
def NoneBehind (test : α → β → Bool) (xs : List α) (ys : List β) (l1 : Nat) : Prop :=
  ∀ k, OccursAt test xs ys k → k + ys.length ≤ l1

theorem noneBehind_end : NoneBehind test xs ys xs.length := fun _ hk => hk.room

theorem NoneBehind.pred {l1 : Nat} (h : NoneBehind test xs ys (l1 + 1))
    (hnot : ∀ k, k + ys.length = l1 + 1 → ¬ OccursAt test xs ys k) :
    NoneBehind test xs ys l1 := by
  intro k hk
  have hle := h k hk
  have hne : k + ys.length ≠ l1 + 1 := fun heq => hnot k heq hk
  omega

/-- In front of `l1` there is no room for the pattern. -/
theorem NoneBehind.last {l1 : Nat} (h : NoneBehind test xs ys l1) (hshort : l1 < ys.length) :
    LastOccurrence test xs ys (xs.length, xs.length) := by
  refine .inr ⟨rfl, fun k hk => ?_⟩
  have hle := h k hk
  omega

theorem findEndBackwardLoop_spec {checked : Bool} {start : Nat} (hpat : start < ys.length)
    (hroom : checked = false → ys.length ≤ start + 1) (fuel l1 : Nat) (hstart : start ≤ l1)
    (hl1 : l1 ≤ xs.length) (hfuel : l1 < start + fuel) (hbehind : NoneBehind test xs ys l1) :
    ∃ r, findEndBackwardLoop test xs ys checked start fuel l1 = .ok r ∧
      LastOccurrence test xs ys r := by
  induction fuel generalizing l1 with
  | zero => omega
  | succ fuel ih =>
    rw [findEndBackwardLoop]
    by_cases hend : l1 = start
    · rw [if_pos hend]
      exact ⟨_, rfl, hbehind.last (by omega)⟩
    · obtain ⟨l1, rfl⟩ : ∃ n, l1 = n + 1 := ⟨l1 - 1, by omega⟩
      obtain ⟨l2, hl2⟩ : ∃ n, ys.length = n + 1 := ⟨ys.length - 1, by omega⟩
      have hin : l1 < xs.length := by omega
      have hlast : l2 < ys.length := by omega
      have hnext (h : ∀ k, k + ys.length = l1 + 1 → ¬ OccursAt test xs ys k) :
          ∃ r, findEndBackwardLoop test xs ys checked start fuel l1 = .ok r ∧
            LastOccurrence test xs ys r :=
        ih l1 (by omega) (by omega) (by omega) (hbehind.pred h)
      have hback : stepBack ys.length = .ok l2 := by rw [hl2, stepBack_succ]
      rw [if_neg hend, hback, exec_bind_ok, stepBack_succ, exec_bind_ok, deref_eq hin,
        exec_bind_ok, deref_eq hlast, exec_bind_ok]
      cases htest : test xs[l1] ys[l2] with
      | false =>
        refine hnext fun k hk => ?_
        have hlies : k + l2 = l1 := by omega
        exact not_occursAt_of_getElem hin hlast hlies htest
      | true =>
        have hsame : ∀ (j : Nat) x y, xs[l1 + j]? = some x → ys[l2 + j]? = some y →
            test x y = true := by
          intro j x y hx hy
          obtain ⟨hj, -⟩ := List.getElem?_eq_some_iff.mp hy
          obtain rfl : j = 0 := by omega
          exact test_of_read hin hlast htest hx hy
        have hleft : checked = false → ys.length ≤ l1 + 1 := by
          intro h
          have := hroom h
          omega
        obtain ⟨a, hrun, ha⟩ := matchBackward_spec hin hleft ys.length l1 l2 (by omega) hlast
          hlast hsame
        rw [if_neg (by simp), hrun, exec_bind_ok]
        cases a with
        | found m1 =>
          dsimp only
          rw [incr_ok hin, exec_bind_ok, ← ha.2]
          refine ⟨_, rfl, .inl ⟨m1, rfl, ha.1, fun k hk hocc => ?_⟩⟩
          have hle := hbehind k hocc
          have hfit := ha.2
          omega
        | exhausted m1 => exact ⟨_, rfl, hbehind.last ha⟩
        | mismatch => exact hnext ha

/-! ## The three overloads -/

/-- An empty pattern occurs last at the end. -/
theorem lastOccurrence_nil : LastOccurrence test xs [] (xs.length, xs.length) := by
  refine .inl ⟨xs.length, rfl, occursAt_nil (Nat.le_refl _), fun k hk => ?_⟩
  exact not_occursAt_of_short (by rw [List.length_nil]; omega)

/-- Every overload hands an empty pattern back at the end before it searches. -/
theorem unlessEmpty_spec {run : Exec (Nat × Nat)}
    (hrun : 0 < ys.length → ∃ r, run = .ok r ∧ LastOccurrence test xs ys r) :
    ∃ r, (if ys.length = 0 then .ok (xs.length, xs.length) else run) = .ok r ∧
      LastOccurrence test xs ys r := by
  split
  next hnil =>
    obtain rfl := List.eq_nil_of_length_eq_zero hnil
    exact ⟨_, rfl, lastOccurrence_nil⟩
  next hnil => exact hrun (Nat.pos_of_ne_zero hnil)

theorem findEndForward_spec :
    ∃ r, findEndForward test xs ys = .ok r ∧ LastOccurrence test xs ys r := by
  refine unlessEmpty_spec fun hpat => ?_
  refine findEndForwardLoop_spec hpat _ 0 none (Nat.zero_le _) (by omega) ?_
  intro k hk
  omega

theorem findEndBidirectional_spec :
    ∃ r, findEndBidirectional test xs ys = .ok r ∧ LastOccurrence test xs ys r := by
  refine unlessEmpty_spec fun hpat => ?_
  refine findEndBackwardLoop_spec hpat ?_ _ _ (Nat.zero_le _) (Nat.le_refl _) (by omega)
    noneBehind_end
  intro h
  cases h

/-- Starting at the first iterator behind which the pattern fits leaves it room. -/
theorem findEndRandomAccess_spec :
    ∃ r, findEndRandomAccess test xs ys = .ok r ∧ LastOccurrence test xs ys r := by
  rw [findEndRandomAccess]
  refine unlessEmpty_spec fun hpat => ?_
  split
  next hshort => exact ⟨_, rfl, noneBehind_end.last hshort⟩
  next hlong =>
    exact findEndBackwardLoop_spec (by omega) (fun _ => by omega) _ _ (by omega) (Nat.le_refl _)
      (by omega) noneBehind_end

theorem findEnd_lastOccurrence (pred : γ → β → Bool) (proj : α → γ) (tag1 tag2 : IteratorTag)
    (xs : List α) (ys : List β) :
    ∃ r, findEnd pred proj tag1 tag2 xs ys = .ok r ∧
      LastOccurrence (fun x y => pred (proj x) y) xs ys r := by
  unfold findEnd
  split
  · exact findEndRandomAccess_spec
  · exact findEndForward_spec
  · exact findEndForward_spec
  · exact findEndBidirectional_spec

/-- A match that overlaps itself, and one cut off by the end. -/
example : search (fun a b => decide (a = b)) id id true [1, 1, 2, 1, 1, 2, 1] [1, 2, 1] =
      .ok (1, 4) ∧
    findEnd (fun a b => decide (a = b)) id .forward .forward [1, 1, 2, 1, 1, 2, 1, 1] [1, 2, 1] =
      .ok (4, 7) := by decide

end EARanges.Algorithm
