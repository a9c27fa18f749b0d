import EARanges.Support.InPlace
import EARanges.Support.Occurrence
import EARanges.Support.WhileTrue

/-!
# `search_n`

algorithm/search_n.hpp. A run of `cnt` matching elements is an occurrence of `cnt` copies
of the value. Both implementations go on behind the element that ended a run too short;
the sized one counts the distance that leaves in `d`.
-/
namespace EARanges.Algorithm
open EARanges.Support

variable {α β γ : Type}

/-- How a run ends: `cnt` elements match up to `m`, the source is exhausted at `m`, or `*m`
does not match behind `c` elements that do. -/
inductive RunEnd where
  | found (m : Nat)
  | exhausted (m : Nat)
  | mismatch (m : Nat) (c : Int)
  deriving DecidableEq, Repr

section
variable (test : α → Bool) (xs : List α) (cnt : Int)

/-- The inner loop, once `*m` matches; `checked` says whether it compares `m` with `last`. -/
def matchRun (checked : Bool) : Nat → Nat → Int → Exec RunEnd
  | 0, _, _ => .error .fuel
  | fuel + 1, m, c => do
    let c := c + 1
    if c = cnt then .ok (.found m)
    else
      let m ← incr xs m
      if checked && m = xs.length then .ok (.exhausted m)
      else
        let x ← deref xs m
        if !test x then .ok (.mismatch m c) else matchRun checked fuel m c

def searchNSizedBody : Nat × Int → Exec (Iteration (Nat × Int) (Nat × Nat))
  | (first, d) => do
    -- no room left: `ranges::next(first, last)`
    if d < cnt then .ok (.done (xs.length, xs.length))
    else
      let x ← deref xs first
      if test x then
        match ← matchRun test xs cnt false (xs.length + 1) first 0 with
        | .found m =>
          let m ← incr xs m
          .ok (.done (first, m))
        -- the unchecked loop never reports this
        | .exhausted m => .ok (.done (m, m))
        | .mismatch m c =>
          let first ← incr xs m
          .ok (.again (first, d - (c + 1)))
      else
        let first ← incr xs first
        .ok (.again (first, d - 1))

def searchNSizedImpl : Exec (Nat × Nat) :=
  whileTrue (searchNSizedBody test xs cnt) (xs.length + 1) (0, xs.length)

def searchNBody (first : Nat) : Exec (Iteration Nat (Nat × Nat)) := do
  if first = xs.length then .ok (.done (first, first))
  else
    let x ← deref xs first
    if test x then
      match ← matchRun test xs cnt true (xs.length + 1) first 0 with
      | .found m =>
        let m ← incr xs m
        .ok (.done (first, m))
      | .exhausted m => .ok (.done (m, m))
      | .mismatch m _ =>
        let first ← incr xs m
        .ok (.again first)
    else
      let first ← incr xs first
      .ok (.again first)

def searchNImpl : Exec (Nat × Nat) := whileTrue (searchNBody test xs cnt) (xs.length + 1) 0

end

/-- `sized` says that the range knows its length. -/
def searchN (pred : γ → β → Bool) (proj : α → γ) (sized : Bool) (xs : List α) (cnt : Int)
    (val : β) : Exec (Nat × Nat) :=
  if cnt ≤ 0 then .ok (0, 0)
  else if sized then searchNSizedImpl (fun x => pred (proj x) val) xs cnt
  else searchNImpl (fun x => pred (proj x) val) xs cnt

/-! ## One run -/

variable {test : α → Bool} {xs : List α} {cnt : Int}

/-- Elements from `first` on that match, up to but not including `m`. -/
def Matching (test : α → Bool) (xs : List α) (first m : Nat) : Prop :=
  ∀ (i : Nat) x, first ≤ i → i < m → xs[i]? = some x → test x = true

theorem Matching.succ {first m : Nat} (h : Matching test xs first m) {y : α}
    (hy : xs[m]? = some y) (htest : test y = true) : Matching test xs first (m + 1) := by
  intro i x hi him hx
  obtain him | rfl := Nat.lt_succ_iff_lt_or_eq.mp him
  · exact h i x hi him hx
  · rw [eq_of_read hy hx]
    exact htest

/-- What the end of the run from `first` on says. -/
def RunEnd.Settles (test : α → Bool) (xs : List α) (cnt : Int) (first : Nat) : RunEnd → Prop
  | .found m => (m : Int) + 1 = first + cnt ∧ m < xs.length ∧ Matching test xs first (m + 1)
  | .exhausted m => m = xs.length ∧ (xs.length : Int) < first + cnt
  | .mismatch m c => (m : Int) = first + c ∧ first < m ∧ (m : Int) < first + cnt ∧
      ∃ x, xs[m]? = some x ∧ test x = false

/-- With room for `cnt` elements the source needs no check. -/
theorem matchRun_spec {checked : Bool} {first : Nat}
    (hroom : checked = false → (first : Int) + cnt ≤ xs.length) (fuel m : Nat) (c : Int)
    (hc : (m : Int) = first + c) (hle : first ≤ m) (hm : m < xs.length)
    (hcnt : c < cnt) (hfuel : xs.length < m + fuel)
    (hsame : Matching test xs first (m + 1)) :
    ∃ e, matchRun test xs cnt checked fuel m c = .ok e ∧ e.Settles test xs cnt first := by
  induction fuel generalizing m c with
  | zero => omega
  | succ fuel ih =>
    rw [matchRun]
    by_cases hlast : c + 1 = cnt
    · rw [if_pos hlast]
      exact ⟨_, rfl, by omega, hm, hsame⟩
    · rw [if_neg hlast, incr_ok hm, exec_bind_ok]
      by_cases hsource : (checked && decide (m + 1 = xs.length)) = true
      · rw [if_pos hsource]
        have hend := of_decide_eq_true (Bool.and_eq_true_iff.mp hsource).2
        exact ⟨_, rfl, hend, by omega⟩
      · have hin : m + 1 < xs.length := lt_of_unchecked hm hsource fun h => by
          have := hroom h
          omega
        rw [if_neg hsource, deref_eq hin, exec_bind_ok]
        cases htest : test xs[m + 1] with
        | false =>
          exact ⟨_, rfl, by omega, by omega, by omega, xs[m + 1],
            List.getElem?_eq_getElem hin, htest⟩
        | true =>
          exact ih (m + 1) (c + 1) (by omega) (by omega) hin (by omega) (by omega)
            (hsame.succ (List.getElem?_eq_getElem hin) htest)

/-- A run that starts on an element that matches. -/
theorem matchRun_start (test : α → Bool) {checked : Bool} {first : Nat}
    (hroom : checked = false → (first : Int) + cnt ≤ xs.length) (hcnt : 0 < cnt)
    (hin : first < xs.length) (htest : test xs[first] = true) :
    ∃ e, matchRun test xs cnt checked (xs.length + 1) first 0 = .ok e ∧
      e.Settles test xs cnt first := by
  refine matchRun_spec hroom (xs.length + 1) first 0 (by omega) (Nat.le_refl _) hin hcnt
    (by omega) fun i x hi hlt hx => ?_
  obtain rfl : i = first := by omega
  rw [eq_of_read (List.getElem?_eq_getElem hin) hx]
  exact htest

/-- Whatever the count, `c` is how far `m` has moved. -/
theorem matchRun_mismatch {checked : Bool} {fuel m m' : Nat} {c c' : Int}
    (h : matchRun test xs cnt checked fuel m c = .ok (.mismatch m' c')) :
    (m' : Int) + c = m + c' := by
  induction fuel generalizing m c with
  | zero => cases h
  | succ fuel ih =>
    rw [matchRun] at h
    split at h
    · cases h
    · obtain ⟨next, hnext, h⟩ := exec_bind_eq_ok.mp h
      obtain ⟨-, rfl⟩ := incr_eq_ok hnext
      split at h
      · cases h
      · obtain ⟨x, -, h⟩ := exec_bind_eq_ok.mp h
        split at h
        · cases h
          omega
        · have := ih h
          omega

/-! ## Runs as occurrences -/

section
variable {rel : α → β → Bool} {val : β} {n : Nat}

theorem occursAt_replicate {first : Nat} (hroom : first + n ≤ xs.length)
    (hsame : Matching (fun x => rel x val) xs first (first + n)) :
    OccursAt rel xs (List.replicate n val) first where
  room := by rwa [List.length_replicate]
  same j x y hx hy := by
    obtain ⟨hj, -⟩ := List.getElem?_eq_some_iff.mp hy
    rw [List.length_replicate] at hj
    rw [List.eq_of_mem_replicate (List.mem_of_getElem? hy)]
    exact hsame (first + j) x (by omega) (by omega) hx

/-- No run holds an element that does not match. -/
theorem not_occursAt_replicate {k m : Nat} {x : α} (hk : k ≤ m) (hm : m < k + n)
    (hx : xs[m]? = some x) (htest : rel x val = false) :
    ¬ OccursAt rel xs (List.replicate n val) k := by
  obtain ⟨j, rfl⟩ := Nat.exists_eq_add_of_le hk
  exact not_occursAt hx (List.getElem?_replicate_of_lt (by omega)) htest

/-- What both loops keep: they have passed no run. -/
def NoRunPassed (rel : α → β → Bool) (val : β) (n : Nat) (xs : List α) (first : Nat) : Prop :=
  first ≤ xs.length ∧ ∀ k < first, ¬ OccursAt rel xs (List.replicate n val) k

theorem noRunPassed_zero : NoRunPassed rel val n xs 0 :=
  ⟨Nat.zero_le _, fun k hk => absurd hk (Nat.not_lt_zero k)⟩

/-- On behind an element that does not match, when too few elements from `first` reach it. -/
theorem NoRunPassed.behind {first m : Nat} {x : α} (h : NoRunPassed rel val n xs first)
    (hm : m < first + n) (hx : xs[m]? = some x) (htest : rel x val = false) :
    NoRunPassed rel val n xs (m + 1) := by
  obtain ⟨hin, -⟩ := List.getElem?_eq_some_iff.mp hx
  refine ⟨hin, fun k hk => ?_⟩
  by_cases hlt : k < first
  · exact h.2 k hlt
  · exact not_occursAt_replicate (by omega) (by omega) hx htest

/-- Too few elements are left. -/
theorem NoRunPassed.last {first : Nat} (h : NoRunPassed rel val n xs first)
    (hshort : xs.length < first + n) :
    FirstOccurrence rel xs (List.replicate n val) (xs.length, xs.length) := by
  refine .inr ⟨rfl, fun k => ?_⟩
  by_cases hk : k < first
  · exact h.2 k hk
  · exact not_occursAt_of_short (by rw [List.length_replicate]; omega)

theorem NoRunPassed.found {first m : Nat} (h : NoRunPassed rel val n xs first)
    (hm : m + 1 = first + n) (hlt : m < xs.length)
    (hsame : Matching (fun x => rel x val) xs first (m + 1)) :
    FirstOccurrence rel xs (List.replicate n val) (first, m + 1) := by
  refine .inl ⟨first, ?_, occursAt_replicate (by omega) (by rwa [← hm]), h.2⟩
  rw [List.length_replicate, hm]

theorem searchNSizedBody_spec (hn : 0 < n) (s : Nat × Int)
    (hs : NoRunPassed rel val n xs s.1 ∧ s.1 + s.2 = xs.length) :
    (∃ s', searchNSizedBody (fun x => rel x val) xs n s = .ok (.again s') ∧
        (NoRunPassed rel val n xs s'.1 ∧ s'.1 + s'.2 = xs.length) ∧
        xs.length - s'.1 < xs.length - s.1) ∨
      ∃ r, searchNSizedBody (fun x => rel x val) xs n s = .ok (.done r) ∧
        FirstOccurrence rel xs (List.replicate n val) r := by
  obtain ⟨first, d⟩ := s
  obtain ⟨hpassed, hd⟩ := hs
  dsimp only at hpassed hd
  rw [searchNSizedBody]
  by_cases hlt : d < n
  · rw [if_pos hlt]
    exact .inr ⟨_, rfl, hpassed.last (by omega)⟩
  · have hin : first < xs.length := by omega
    have hx : xs[first]? = some xs[first] := List.getElem?_eq_getElem hin
    rw [if_neg hlt, deref_eq hin, exec_bind_ok]
    cases htest : rel xs[first] val with
    | false =>
      rw [if_neg Bool.false_ne_true, incr_ok hin, exec_bind_ok]
      exact .inl ⟨_, rfl, ⟨hpassed.behind (by omega) hx htest, by dsimp only; omega⟩,
        by dsimp only; omega⟩
    | true =>
      have hroom : false = false → (first : Int) + n ≤ xs.length := fun _ => by omega
      obtain ⟨e, hrun, he⟩ := matchRun_start (fun x => rel x val) hroom (by omega) hin htest
      rw [if_pos rfl, hrun, exec_bind_ok]
      cases e with
      | found m =>
        obtain ⟨hm, hlast, hsame⟩ := he
        dsimp only
        rw [incr_ok hlast, exec_bind_ok]
        exact .inr ⟨_, rfl, hpassed.found (by omega) hlast hsame⟩
      | exhausted m => exact absurd he.2 (by omega)
      | mismatch m c =>
        obtain ⟨hc, hgt, hcnt, x, hx, htest⟩ := he
        obtain ⟨hm, -⟩ := List.getElem?_eq_some_iff.mp hx
        dsimp only
        rw [incr_ok hm, exec_bind_ok]
        exact .inl ⟨_, rfl, ⟨hpassed.behind (by omega) hx htest, by dsimp only; omega⟩,
          by dsimp only; omega⟩

theorem searchNBody_spec (hn : 0 < n) (first : Nat) (hpassed : NoRunPassed rel val n xs first) :
    (∃ s', searchNBody (fun x => rel x val) xs n first = .ok (.again s') ∧
        NoRunPassed rel val n xs s' ∧ xs.length - s' < xs.length - first) ∨
      ∃ r, searchNBody (fun x => rel x val) xs n first = .ok (.done r) ∧
        FirstOccurrence rel xs (List.replicate n val) r := by
  have hle := hpassed.1
  rw [searchNBody]
  by_cases hend : first = xs.length
  · rw [if_pos hend, hend]
    exact .inr ⟨_, rfl, hpassed.last (by omega)⟩
  · have hin : first < xs.length := by omega
    have hx : xs[first]? = some xs[first] := List.getElem?_eq_getElem hin
    rw [if_neg hend, deref_eq hin, exec_bind_ok]
    cases htest : rel xs[first] val with
    | false =>
      rw [if_neg Bool.false_ne_true, incr_ok hin, exec_bind_ok]
      exact .inl ⟨_, rfl, hpassed.behind (by omega) hx htest, by omega⟩
    | true =>
      have hroom : true = false → (first : Int) + n ≤ xs.length := by
        intro h
        cases h
      obtain ⟨e, hrun, he⟩ := matchRun_start (fun x => rel x val) hroom (by omega) hin htest
      rw [if_pos rfl, hrun, exec_bind_ok]
      cases e with
      | found m =>
        obtain ⟨hm, hlast, hsame⟩ := he
        dsimp only
        rw [incr_ok hlast, exec_bind_ok]
        exact .inr ⟨_, rfl, hpassed.found (by omega) hlast hsame⟩
      | exhausted m =>
        obtain ⟨rfl, hshort⟩ := he
        exact .inr ⟨_, rfl, hpassed.last (by omega)⟩
      | mismatch m c =>
        obtain ⟨hc, hgt, hcnt, x, hx, htest⟩ := he
        obtain ⟨hm, -⟩ := List.getElem?_eq_some_iff.mp hx
        dsimp only
        rw [incr_ok hm, exec_bind_ok]
        exact .inl ⟨_, rfl, hpassed.behind (by omega) hx htest, by omega⟩

end

/-! ## The counter -/

/-- One pass keeps `d` the distance from `first` to the end, for any count. -/
theorem searchNSizedBody_distance {s s' : Nat × Int} (hs : s.1 + s.2 = xs.length)
    (hrun : searchNSizedBody test xs cnt s = .ok (.again s')) :
    s'.1 ≤ xs.length ∧ s'.1 + s'.2 = xs.length := by
  obtain ⟨first, d⟩ := s
  rw [searchNSizedBody] at hrun
  dsimp only at hs
  split at hrun
  · cases hrun
  · obtain ⟨x, -, hrun⟩ := exec_bind_eq_ok.mp hrun
    split at hrun
    · obtain ⟨e, hmatch, hrun⟩ := exec_bind_eq_ok.mp hrun
      cases e with
      | found m =>
        obtain ⟨m', -, hrun⟩ := exec_bind_eq_ok.mp hrun
        cases hrun
      | exhausted m => cases hrun
      | mismatch m c =>
        obtain ⟨next, hnext, hrun⟩ := exec_bind_eq_ok.mp hrun
        obtain ⟨hin, rfl⟩ := incr_eq_ok hnext
        have hmoved := matchRun_mismatch hmatch
        cases hrun
        exact ⟨hin, by dsimp only; omega⟩
    · obtain ⟨next, hnext, hrun⟩ := exec_bind_eq_ok.mp hrun
      obtain ⟨hin, rfl⟩ := incr_eq_ok hnext
      cases hrun
      exact ⟨hin, by dsimp only; omega⟩

theorem visits_distance {s : Nat × Int}
    (hs : Visits (searchNSizedBody test xs cnt) (0, (xs.length : Int)) s) :
    s.1 ≤ xs.length ∧ s.1 + s.2 = xs.length := by
  have hstart : (0 : Nat) ≤ xs.length ∧ ((0 : Nat) : Int) + xs.length = xs.length :=
    ⟨Nat.zero_le _, by simp⟩
  exact hs.invariant (I := fun s : Nat × Int => s.1 ≤ xs.length ∧ s.1 + s.2 = xs.length) hstart
    fun s s' hinv hrun => searchNSizedBody_distance hinv.2 hrun

/-! ## The searches -/

theorem searchN_firstOccurrence (pred : γ → β → Bool) (proj : α → γ) (sized : Bool)
    (xs : List α) (cnt : Int) (val : β) :
    ∃ r, searchN pred proj sized xs cnt val = .ok r ∧
      FirstOccurrence (fun x v => pred (proj x) v) xs (List.replicate cnt.toNat val) r := by
  rw [searchN]
  split
  next hcnt =>
    rw [Int.toNat_of_nonpos hcnt]
    exact ⟨_, rfl, .inl ⟨0, rfl, occursAt_nil (Nat.zero_le _), noRunPassed_zero.2⟩⟩
  next hcnt =>
    obtain ⟨n, rfl⟩ := Int.eq_ofNat_of_zero_le (Int.le_of_not_le hcnt)
    have hn : 0 < n := by omega
    split
    · exact whileTrue_spec (fun s => xs.length - s.1) (searchNSizedBody_spec hn) _ _
        ⟨noRunPassed_zero, by simp⟩ (by dsimp only; omega)
    · exact whileTrue_spec (fun first => xs.length - first) (searchNBody_spec hn) _ _
        noRunPassed_zero (by omega)

/-- A run too short is skipped. -/
example : searchN (fun a b => decide (a = b)) id true [2, 2, 1, 2, 2, 2] 3 2 = .ok (3, 6) ∧
    searchN (fun a b => decide (a = b)) id false [2, 2, 1, 2, 2, 2] 4 2 = .ok (6, 6) := by
  decide

end EARanges.Algorithm
