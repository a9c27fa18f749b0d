import EARanges.Algorithm.Mismatch
import EARanges.Support.Exec
import EARanges.Support.Rearrangement

/-!
# `is_permutation`

algorithm/permutation.hpp. A sequence is the list of its elements and an iterator is the
suffix it starts; `distance` is the length. The four concept tests that choose the
dispatch (`sized_sentinel_for`, `sized_range`) are facts about the argument types, so they
are a parameter of their own. The overload set is recursive through `(*this)(...)`, hence
the fuel.
-/
namespace EARanges.Algorithm
open EARanges.Support

variable {α β γ : Type}

/-- The loop over `i` in `is_permutation_impl`: `seen` is `[begin1, i)`, the last
argument is `[i, end1)`. -/
def countingLoop (pred : γ → γ → Bool) (proj1 : α → γ) (proj2 : β → γ) (s2 : List β)
    (seen : List α) : List α → Bool
  | [] => true
  | a :: rest =>
    let shouldContinue := seen.any fun j => pred (proj1 j) (proj1 a)
    if shouldContinue then countingLoop pred proj1 proj2 s2 (seen ++ [a]) rest
    else
      let c2 := s2.countP fun j => pred (proj1 a) (proj2 j)
      if c2 == 0 then false
      else
        let c1 := 1 + rest.countP fun j => pred (proj1 a) (proj1 j)
        if c1 != c2 then false else countingLoop pred proj1 proj2 s2 (seen ++ [a]) rest

def isPermutationImpl (pred : γ → γ → Bool) (proj1 : α → γ) (proj2 : β → γ)
    (s1 : List α) (s2 : List β) : Bool :=
  let m := mismatch pred proj1 proj2 s1 s2
  let begin1 := m.1
  let begin2 := m.2
  if begin1.isEmpty || begin2.isEmpty then begin1.isEmpty && begin2.isEmpty
  else if begin1.length != begin2.length then false
  else countingLoop pred proj1 proj2 begin2 [] begin1

/-- What the overload set asks of the two argument types. -/
structure SizedTraits where
  sizedSentinel1 : Bool
  sizedSentinel2 : Bool
  sizedRange1 : Bool
  sizedRange2 : Bool
  deriving DecidableEq, Repr

/-- The condition under which the iterator overload takes its first branch. -/
def SizedTraits.sentinels (t : SizedTraits) : Bool := t.sizedSentinel1 && t.sizedSentinel2

/-- The condition under which the range overload takes its first branch. -/
def SizedTraits.ranges (t : SizedTraits) : Bool := t.sizedRange1 && t.sizedRange2

/-- The iterator overload. `(*this)` is called with all seven arguments, and the only
overload taking seven is this one. -/
def isPermutation (t : SizedTraits) (pred : γ → γ → Bool) (proj1 : α → γ) (proj2 : β → γ)
    (s1 : List α) (s2 : List β) : Nat → Exec Bool
  | 0 => .error .fuel
  | fuel + 1 =>
    if t.sentinels then
      if s1.length == s2.length then isPermutation t pred proj1 proj2 s1 s2 fuel else .ok false
    else .ok (isPermutationImpl pred proj1 proj2 s1 s2)

/-- The range overload. -/
def isPermutationRange (t : SizedTraits) (pred : γ → γ → Bool) (proj1 : α → γ) (proj2 : β → γ)
    (rng1 : List α) (rng2 : List β) (fuel : Nat) : Exec Bool :=
  if t.ranges then
    if rng1.length == rng2.length then isPermutation t pred proj1 proj2 rng1 rng2 fuel
    else .ok false
  else .ok (isPermutationImpl pred proj1 proj2 rng1 rng2)

/-! ## The counting loop -/

/-- The projected values of `s2` are a rearrangement of those of `s1`. -/
def ProjectedPermutation (pred : γ → γ → Bool) (proj1 : α → γ) (proj2 : β → γ)
    (s1 : List α) (s2 : List β) : Prop :=
  Rearranges pred (s1.map proj1) (s2.map proj2)

/-- Skipping a common prefix does not change the question. -/
theorem mismatch_rearranges {pred : γ → γ → Bool} (hp : IsEquivalence pred)
    (proj1 : α → γ) (proj2 : β → γ) (s1 : List α) (s2 : List β) :
    ProjectedPermutation pred proj1 proj2 s1 s2 ↔
      ProjectedPermutation pred proj1 proj2 (mismatch pred proj1 proj2 s1 s2).1
        (mismatch pred proj1 proj2 s1 s2).2 := by
  fun_induction mismatch pred proj1 proj2 s1 s2 with
  | case1 => rfl
  | case2 a s1 b s2 h ih =>
    rw [← ih]
    simp only [ProjectedPermutation, List.map_cons]
    exact rearranges_cons_iff hp (by simpa using h) _ _
  | case3 => rfl

/-- As many elements of the class of `a` in `s1` as in `s2`. -/
def SameCount (pred : γ → γ → Bool) (proj1 : α → γ) (proj2 : β → γ) (s1 : List α) (s2 : List β)
    (a : α) : Prop :=
  s1.countP (fun j => pred (proj1 a) (proj1 j)) = s2.countP (fun j => pred (proj1 a) (proj2 j))

theorem SameCount.congr {pred : γ → γ → Bool} (hp : IsEquivalence pred) {proj1 : α → γ}
    {proj2 : β → γ} {s1 : List α} {s2 : List β} {a b : α}
    (hab : pred (proj1 b) (proj1 a) = true) (h : SameCount pred proj1 proj2 s1 s2 b) :
    SameCount pred proj1 proj2 s1 s2 a := by
  unfold SameCount at h ⊢
  simpa only [hp.congr_left hab] using h

/-- The first of its class has its class in `[i, end1)`. -/
theorem countP_unseen {pred : γ → γ → Bool} (hp : IsEquivalence pred) (proj1 : α → γ)
    {seen : List α} {a : α} (rest : List α)
    (hany : ¬ (seen.any fun j => pred (proj1 j) (proj1 a)) = true) :
    (seen ++ a :: rest).countP (fun j => pred (proj1 a) (proj1 j)) =
      1 + rest.countP fun j => pred (proj1 a) (proj1 j) := by
  have hnone : seen.countP (fun j => pred (proj1 a) (proj1 j)) = 0 := by
    rw [List.countP_eq_zero]
    intro j hj hja
    exact hany (List.any_eq_true.mpr ⟨j, hj, hp.symm hja⟩)
  rw [List.countP_append, hnone, List.countP_cons, if_pos (hp.refl _)]
  omega

/-- Class counts agree on every element of `[i, end1)`, provided they agree on what
the loop has already been through. This is the invariant the inner
"have we counted it already" scan relies on. -/
theorem countingLoop_iff {pred : γ → γ → Bool} (hp : IsEquivalence pred)
    (proj1 : α → γ) (proj2 : β → γ) (s2 : List β) (seen rest : List α)
    (hseen : ∀ a ∈ seen, SameCount pred proj1 proj2 (seen ++ rest) s2 a) :
    countingLoop pred proj1 proj2 s2 seen rest = true ↔
      ∀ a ∈ rest, SameCount pred proj1 proj2 (seen ++ rest) s2 a := by
  induction rest generalizing seen with
  | nil => simp [countingLoop]
  | cons a rest ih =>
    have happ : seen ++ a :: rest = (seen ++ [a]) ++ rest := by simp
    -- once the count of `a` is settled the loop goes on with `a` among the seen
    have hstep : SameCount pred proj1 proj2 (seen ++ a :: rest) s2 a →
        (countingLoop pred proj1 proj2 s2 (seen ++ [a]) rest = true ↔
          ∀ b ∈ a :: rest, SameCount pred proj1 proj2 (seen ++ a :: rest) s2 b) := by
      intro ha
      rw [ih (seen ++ [a])]
      · rw [← happ, List.forall_mem_cons]
        exact ⟨fun h => ⟨ha, h⟩, fun h => h.2⟩
      · intro b hb
        rw [← happ]
        rcases List.mem_append.mp hb with hb | hb
        · exact hseen b hb
        · rw [List.mem_singleton.mp hb]
          exact ha
    rw [countingLoop]
    by_cases hany : (seen.any fun j => pred (proj1 j) (proj1 a)) = true
    · rw [if_pos hany]
      obtain ⟨b, hb, hba⟩ := List.any_eq_true.mp hany
      exact hstep ((hseen b hb).congr hp hba)
    · rw [if_neg hany]
      have hcount := countP_unseen hp proj1 rest hany
      -- an unequal count, zero included, refutes the right-hand side at `a` itself
      have hfail : 1 + rest.countP (fun j => pred (proj1 a) (proj1 j)) ≠
            s2.countP (fun j => pred (proj1 a) (proj2 j)) →
          ¬ ∀ b ∈ a :: rest, SameCount pred proj1 proj2 (seen ++ a :: rest) s2 b :=
        fun hne h => hne (hcount.symm.trans (h a (by simp)))
      have hgo : 1 + rest.countP (fun j => pred (proj1 a) (proj1 j)) =
            s2.countP (fun j => pred (proj1 a) (proj2 j)) →
          SameCount pred proj1 proj2 (seen ++ a :: rest) s2 a := hcount.trans
      dsimp only
      generalize s2.countP (fun j => pred (proj1 a) (proj2 j)) = c2 at hfail hgo ⊢
      split
      next hzero =>
        simp only [Bool.false_eq_true, false_iff]
        exact hfail (by simp only [beq_iff_eq] at hzero; omega)
      next =>
        split
        next hne =>
          simp only [Bool.false_eq_true, false_iff]
          exact hfail (by simpa using hne)
        next heq => exact hstep (hgo (by simpa using heq))

theorem isPermutationImpl_iff {pred : γ → γ → Bool} (hp : IsEquivalence pred)
    (proj1 : α → γ) (proj2 : β → γ) (s1 : List α) (s2 : List β) :
    isPermutationImpl pred proj1 proj2 s1 s2 = true ↔
      ProjectedPermutation pred proj1 proj2 s1 s2 := by
  rw [mismatch_rearranges hp, isPermutationImpl]
  generalize (mismatch pred proj1 proj2 s1 s2).1 = begin1
  generalize (mismatch pred proj1 proj2 s1 s2).2 = begin2
  by_cases hempty : (begin1.isEmpty || begin2.isEmpty) = true
  · rw [if_pos hempty]
    constructor
    · intro h
      simp only [Bool.and_eq_true, List.isEmpty_iff] at h
      obtain ⟨rfl, rfl⟩ := h
      exact ⟨[], List.Perm.refl _, List.Forall₂.nil⟩
    · intro h
      have hlen := h.length_eq
      simp only [List.length_map] at hlen
      cases begin1 <;> cases begin2 <;> simp_all
  · rw [if_neg hempty]
    by_cases hlen : begin1.length = begin2.length
    · rw [if_neg (by simpa using hlen), countingLoop_iff hp _ _ _ _ _ (by simp)]
      simp only [List.nil_append]
      constructor
      · intro h
        apply rearranges_of_count hp (by simpa using hlen)
        intro c hc
        obtain ⟨a, ha, rfl⟩ := List.mem_map.mp hc
        simpa only [SameCount, List.countP_map, Function.comp_def] using h a ha
      · intro h a _
        simpa only [SameCount, List.countP_map, Function.comp_def] using h.countP_eq hp (proj1 a)
    · rw [if_pos (by simpa using hlen)]
      simp only [Bool.false_eq_true, false_iff]
      exact fun h => hlen (by simpa using h.length_eq)

/-! ## The two overloads -/

theorem isPermutation_unsized (t : SizedTraits) (ht : t.sentinels = false)
    (pred : γ → γ → Bool) (proj1 : α → γ) (proj2 : β → γ) (s1 : List α) (s2 : List β) :
    Returns (isPermutation t pred proj1 proj2 s1 s2)
      (isPermutationImpl pred proj1 proj2 s1 s2) :=
  Returns.of_forall 1 fun fuel => by simp [Nat.add_comm 1, isPermutation, ht]

theorem isPermutation_sized_ne (t : SizedTraits) (ht : t.sentinels = true)
    (pred : γ → γ → Bool) (proj1 : α → γ) (proj2 : β → γ) (s1 : List α) (s2 : List β)
    (hlen : s1.length ≠ s2.length) :
    Returns (isPermutation t pred proj1 proj2 s1 s2) false :=
  Returns.of_forall 1 fun fuel => by simp [Nat.add_comm 1, isPermutation, ht, hlen]

/-- Equal lengths send the sized branch back to itself with the same arguments. -/
theorem isPermutation_sized_eq (t : SizedTraits) (ht : t.sentinels = true)
    (pred : γ → γ → Bool) (proj1 : α → γ) (proj2 : β → γ) (s1 : List α) (s2 : List β)
    (hlen : s1.length = s2.length) :
    Diverges (isPermutation t pred proj1 proj2 s1 s2) := by
  intro fuel
  induction fuel with
  | zero => rfl
  | succ fuel ih => simpa [isPermutation, ht, hlen] using ih

/-- The iterator overload decides rearrangement unless both sentinels are sized and
the lengths agree. -/
theorem isPermutation_decides_iff {pred : γ → γ → Bool} (hp : IsEquivalence pred)
    (t : SizedTraits) (proj1 : α → γ) (proj2 : β → γ) (s1 : List α) (s2 : List β) :
    Decides (isPermutation t pred proj1 proj2 s1 s2)
        (ProjectedPermutation pred proj1 proj2 s1 s2) ↔
      ¬ (t.sentinels = true ∧ s1.length = s2.length) := by
  constructor
  · rintro h ⟨ht, hlen⟩
    exact (isPermutation_sized_eq t ht pred proj1 proj2 s1 s2 hlen).not_decides _ h
  · intro h
    cases ht : t.sentinels with
    | false =>
      exact ⟨_, isPermutation_unsized t ht pred proj1 proj2 s1 s2,
        isPermutationImpl_iff hp proj1 proj2 s1 s2⟩
    | true =>
      have hlen : s1.length ≠ s2.length := fun he => h ⟨ht, he⟩
      refine ⟨false, isPermutation_sized_ne t ht pred proj1 proj2 s1 s2 hlen, ?_⟩
      simp only [Bool.false_eq_true, false_iff]
      exact fun hperm => hlen (by simpa using hperm.length_eq)

/-- The range overload reaches the same loop only through sized ranges. -/
theorem isPermutationRange_decides_iff {pred : γ → γ → Bool} (hp : IsEquivalence pred)
    (t : SizedTraits) (proj1 : α → γ) (proj2 : β → γ) (rng1 : List α) (rng2 : List β) :
    Decides (isPermutationRange t pred proj1 proj2 rng1 rng2)
        (ProjectedPermutation pred proj1 proj2 rng1 rng2) ↔
      ¬ (t.ranges = true ∧ t.sentinels = true ∧ rng1.length = rng2.length) := by
  cases ht : t.ranges with
  | false =>
    simp only [Bool.false_eq_true, false_and, not_false_eq_true, iff_true]
    refine ⟨_, ⟨0, fun fuel _ => ?_⟩, isPermutationImpl_iff hp proj1 proj2 rng1 rng2⟩
    simp [isPermutationRange, ht]
  | true =>
    by_cases hlen : rng1.length = rng2.length
    · have hrun : isPermutationRange t pred proj1 proj2 rng1 rng2 =
          isPermutation t pred proj1 proj2 rng1 rng2 := by
        funext fuel
        simp [isPermutationRange, ht, hlen]
      rw [hrun, isPermutation_decides_iff hp]
      simp
    · simp only [hlen, and_false, not_false_eq_true, iff_true]
      refine ⟨false, ⟨0, fun fuel _ => by simp [isPermutationRange, ht, hlen]⟩, ?_⟩
      simp only [Bool.false_eq_true, false_iff]
      exact fun hperm => hlen (by simpa using hperm.length_eq)

/-- The sized dispatch contradicts the unsized one on every pair of equally long
sequences, and on no other. -/
theorem isPermutation_dispatches_agree_iff {pred : γ → γ → Bool} (hp : IsEquivalence pred)
    (proj1 : α → γ) (proj2 : β → γ) (s1 : List α) (s2 : List β) :
    (∀ t t' : SizedTraits, ∃ b, Returns (isPermutation t pred proj1 proj2 s1 s2) b ∧
      Returns (isPermutation t' pred proj1 proj2 s1 s2) b) ↔ s1.length ≠ s2.length := by
  constructor
  · intro h hlen
    obtain ⟨b, hb, _⟩ := h ⟨true, true, true, true⟩ ⟨true, true, true, true⟩
    exact (isPermutation_sized_eq _ rfl pred proj1 proj2 s1 s2 hlen).not_returns b hb
  · intro hlen
    have hfalse : ∀ t : SizedTraits,
        Returns (isPermutation t pred proj1 proj2 s1 s2) false := by
      intro t
      obtain ⟨b, hb, hspec⟩ := (isPermutation_decides_iff hp t proj1 proj2 s1 s2).mpr
        (fun h => hlen h.2)
      cases b with
      | false => exact hb
      | true => exact absurd (by simpa using (hspec.mp rfl).length_eq) hlen
    exact fun t t' => ⟨false, hfalse t, hfalse t'⟩

/-- Both overloads meet the contract exactly off the self-call: termination with the
right answer fails precisely when the sized branch is entered with equal lengths. -/
theorem isPermutation_contract_iff {pred : γ → γ → Bool} (hp : IsEquivalence pred)
    (proj1 : α → γ) (proj2 : β → γ) (s1 : List α) (s2 : List β) :
    (∀ t : SizedTraits, Decides (isPermutation t pred proj1 proj2 s1 s2)
        (ProjectedPermutation pred proj1 proj2 s1 s2) ↔
      ¬ (t.sentinels = true ∧ s1.length = s2.length)) ∧
    (∀ t : SizedTraits, Decides (isPermutationRange t pred proj1 proj2 s1 s2)
        (ProjectedPermutation pred proj1 proj2 s1 s2) ↔
      ¬ (t.ranges = true ∧ t.sentinels = true ∧ s1.length = s2.length)) ∧
    ((∀ t t' : SizedTraits, ∃ b, Returns (isPermutation t pred proj1 proj2 s1 s2) b ∧
      Returns (isPermutation t' pred proj1 proj2 s1 s2) b) ↔ s1.length ≠ s2.length) :=
  ⟨fun t => isPermutation_decides_iff hp t proj1 proj2 s1 s2,
    fun t => isPermutationRange_decides_iff hp t proj1 proj2 s1 s2,
    isPermutation_dispatches_agree_iff hp proj1 proj2 s1 s2⟩

theorem isEquivalence_beq_nat : IsEquivalence (fun a b : Nat => a == b) where
  refl := by simp
  symm := by simp only [beq_iff_eq]; exact fun h => h.symm
  trans := by simp only [beq_iff_eq]; exact fun h h' => h.trans h'

theorem isPermutation_contract_iff_nat :
    Decides (isPermutation ⟨false, false, true, true⟩ (fun a b : Nat => a == b) id id
      [1, 2] [2, 1]) (ProjectedPermutation (fun a b : Nat => a == b) id id [1, 2] [2, 1]) :=
  ((isPermutation_contract_iff isEquivalence_beq_nat id id [1, 2] [2, 1]).1
    ⟨false, false, true, true⟩).mpr (by decide)

/-- Two arrays `{1, 2}` and `{2, 1}` walked by pointers: a permutation, and no answer. -/
theorem isPermutation_pointers_no_answer :
    ProjectedPermutation (fun a b : Nat => a == b) id id [1, 2] [2, 1] ∧
    ¬ Decides (isPermutation ⟨true, true, true, true⟩ (fun a b : Nat => a == b) id id
      [1, 2] [2, 1]) (ProjectedPermutation (fun a b : Nat => a == b) id id [1, 2] [2, 1]) := by
  refine ⟨(isPermutationImpl_iff isEquivalence_beq_nat id id [1, 2] [2, 1]).mp (by decide), ?_⟩
  exact (isPermutation_sized_eq ⟨true, true, true, true⟩ rfl (fun a b : Nat => a == b) id id
    [1, 2] [2, 1] rfl).not_decides _

end EARanges.Algorithm
