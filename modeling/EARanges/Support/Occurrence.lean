import Mathlib.Data.List.Basic

/-!
# Occurrences of a pattern

A pattern `ys` occurs in `xs` at `i` when it fits there and a test relates each of its
elements to the one of `xs` it lies on. A sub-range is the pair of its ends; the one at
the end of `xs` stands for no occurrence, which leaves one answer for the first occurrence
and one for the last.
-/
namespace EARanges.Support

variable {α β : Type} {test : α → β → Bool} {xs : List α} {ys : List β}

structure OccursAt (test : α → β → Bool) (xs : List α) (ys : List β) (i : Nat) : Prop where
  room : i + ys.length ≤ xs.length
  same : ∀ (j : Nat) x y, xs[i + j]? = some x → ys[j]? = some y → test x y = true

/-- The ends of the first occurrence. -/
def FirstOccurrence (test : α → β → Bool) (xs : List α) (ys : List β) (r : Nat × Nat) : Prop :=
  (∃ i, r = (i, i + ys.length) ∧ OccursAt test xs ys i ∧ ∀ k < i, ¬ OccursAt test xs ys k) ∨
    r = (xs.length, xs.length) ∧ ∀ k, ¬ OccursAt test xs ys k

/-- The ends of the last occurrence. -/
def LastOccurrence (test : α → β → Bool) (xs : List α) (ys : List β) (r : Nat × Nat) : Prop :=
  (∃ i, r = (i, i + ys.length) ∧ OccursAt test xs ys i ∧ ∀ k, i < k → ¬ OccursAt test xs ys k) ∨
    r = (xs.length, xs.length) ∧ ∀ k, ¬ OccursAt test xs ys k

theorem occursAt_nil {i : Nat} (h : i ≤ xs.length) : OccursAt test xs [] i where
  room := h
  same j x y _ hy := by
    rw [List.getElem?_nil] at hy
    cases hy

/-- Two elements that the test does not relate refute the occurrence that puts one on the
other. -/
theorem not_occursAt {i j : Nat} {x : α} {y : β} (hx : xs[i + j]? = some x)
    (hy : ys[j]? = some y) (h : test x y = false) : ¬ OccursAt test xs ys i := by
  intro hocc
  rw [hocc.same j x y hx hy] at h
  cases h

theorem not_occursAt_of_getElem {i j m : Nat} (hm : m < xs.length) (hj : j < ys.length)
    (hlies : i + j = m) (h : test xs[m] ys[j] = false) : ¬ OccursAt test xs ys i := by
  subst hlies
  exact not_occursAt (List.getElem?_eq_getElem hm) (List.getElem?_eq_getElem hj) h

theorem test_of_read {i j : Nat} {x : α} {y : β} (hi : i < xs.length) (hj : j < ys.length)
    (h : test xs[i] ys[j] = true) (hx : xs[i]? = some x) (hy : ys[j]? = some y) :
    test x y = true := by
  obtain ⟨_, rfl⟩ := List.getElem?_eq_some_iff.mp hx
  obtain ⟨_, rfl⟩ := List.getElem?_eq_some_iff.mp hy
  exact h

theorem not_occursAt_of_short {i : Nat} (h : xs.length < i + ys.length) :
    ¬ OccursAt test xs ys i :=
  fun hocc => Nat.not_le.mpr h hocc.room

theorem FirstOccurrence.unique {r s : Nat × Nat} (hr : FirstOccurrence test xs ys r)
    (hs : FirstOccurrence test xs ys s) : r = s := by
  obtain ⟨i, rfl, hi, hbelow⟩ | ⟨rfl, hnone⟩ := hr
  · obtain ⟨k, rfl, hk, hbelow'⟩ | ⟨rfl, hnone⟩ := hs
    · obtain hlt | rfl | hgt := Nat.lt_trichotomy i k
      · exact absurd hi (hbelow' i hlt)
      · rfl
      · exact absurd hk (hbelow k hgt)
    · exact absurd hi (hnone i)
  · obtain ⟨k, rfl, hk, _⟩ | ⟨rfl, _⟩ := hs
    · exact absurd hk (hnone k)
    · rfl

theorem LastOccurrence.unique {r s : Nat × Nat} (hr : LastOccurrence test xs ys r)
    (hs : LastOccurrence test xs ys s) : r = s := by
  obtain ⟨i, rfl, hi, habove⟩ | ⟨rfl, hnone⟩ := hr
  · obtain ⟨k, rfl, hk, habove'⟩ | ⟨rfl, hnone⟩ := hs
    · obtain hlt | rfl | hgt := Nat.lt_trichotomy i k
      · exact absurd hk (habove k hlt)
      · rfl
      · exact absurd hi (habove' i hgt)
    · exact absurd hi (hnone i)
  · obtain ⟨k, rfl, hk, _⟩ | ⟨rfl, _⟩ := hs
    · exact absurd hk (hnone k)
    · rfl

end EARanges.Support
