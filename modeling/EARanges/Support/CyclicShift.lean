import Mathlib.Data.Int.GCD
import Mathlib.Data.Int.ModEq
import Mathlib.Tactic.LinearCombination

/-!
# The cycles of a cyclic shift

Shifting the indices below `n` by `m` moves an index along its cycle. The cycle of `p`
consists of the indices congruent to `p` modulo `gcd n m` (`mod_gcd_eq_iff`) and closes
after `n / gcd n m` steps, not before (`cycleAt_inj`, `cycleAt_period`).
-/
namespace EARanges.Support

/-- The index reached from `p` by `k` shifts. -/
def cycleAt (n m p k : Nat) : Nat := (p + k * m) % n

/-- The number of indices in a cycle. -/
def cyclePeriod (n m : Nat) : Nat := n / Nat.gcd n m

variable {n m p : Nat}

theorem cycleAt_zero (hp : p < n) : cycleAt n m p 0 = p := by
  simp [cycleAt, Nat.mod_eq_of_lt hp]

theorem cycleAt_succ (n m p k : Nat) : cycleAt n m p (k + 1) = (cycleAt n m p k + m) % n := by
  rw [cycleAt, cycleAt, Nat.succ_mul, ← Nat.add_assoc, Nat.mod_add_mod]

theorem cycleAt_lt (hn : 0 < n) (m p k : Nat) : cycleAt n m p k < n := Nat.mod_lt _ hn

theorem dvd_mul_iff_period_dvd (hn : 0 < n) (d : Nat) : n ∣ d * m ↔ cyclePeriod n m ∣ d := by
  have hg : 0 < Nat.gcd n m := Nat.gcd_pos_of_pos_left m hn
  have hcop : Nat.Coprime (n / Nat.gcd n m) (m / Nat.gcd n m) := Nat.coprime_div_gcd_div_gcd hg
  have hn' : n = cyclePeriod n m * Nat.gcd n m := (Nat.div_mul_cancel (Nat.gcd_dvd_left n m)).symm
  have hm' : m = m / Nat.gcd n m * Nat.gcd n m := (Nat.div_mul_cancel (Nat.gcd_dvd_right n m)).symm
  constructor
  · intro h
    have h' : cyclePeriod n m * Nat.gcd n m ∣ d * (m / Nat.gcd n m) * Nat.gcd n m := by
      rw [← hn', Nat.mul_assoc, ← hm']
      exact h
    exact hcop.dvd_of_dvd_mul_right (Nat.dvd_of_mul_dvd_mul_right hg h')
  · rintro ⟨c, rfl⟩
    refine ⟨c * (m / Nat.gcd n m), ?_⟩
    calc cyclePeriod n m * c * m
        = cyclePeriod n m * c * (m / Nat.gcd n m * Nat.gcd n m) := by rw [← hm']
      _ = cyclePeriod n m * Nat.gcd n m * (c * (m / Nat.gcd n m)) := by
          simp only [Nat.mul_assoc, Nat.mul_comm, Nat.mul_left_comm]
      _ = n * (c * (m / Nat.gcd n m)) := by rw [← hn']

/-- The cycle does not meet itself before it closes. -/
theorem cycleAt_inj (hn : 0 < n) {i j : Nat} (hi : i < cyclePeriod n m) (hj : j < cyclePeriod n m)
    (h : cycleAt n m p i = cycleAt n m p j) : i = j := by
  have key : ∀ {i j : Nat}, i ≤ j → j < cyclePeriod n m → cycleAt n m p i = cycleAt n m p j →
      i = j := by
    intro i j hij hj h
    have hmod : (p + i * m) ≡ (p + j * m) [MOD n] := h
    have hdvd : n ∣ (j - i) * m := by
      have hle : p + i * m ≤ p + j * m := Nat.add_le_add_left (Nat.mul_le_mul_right m hij) p
      have := (Nat.modEq_iff_dvd' hle).mp hmod
      rwa [Nat.add_sub_add_left, ← Nat.sub_mul] at this
    have := Nat.eq_zero_of_dvd_of_lt ((dvd_mul_iff_period_dvd hn (j - i)).mp hdvd) (by omega)
    omega
  cases Nat.le_total i j with
  | inl hij => exact key hij hj h
  | inr hji => exact (key hji hi h.symm).symm

/-- After a period it closes. -/
theorem cycleAt_period (hn : 0 < n) (hp : p < n) : cycleAt n m p (cyclePeriod n m) = p := by
  have hdvd : n ∣ cyclePeriod n m * m := (dvd_mul_iff_period_dvd hn _).mpr (Nat.dvd_refl _)
  rw [cycleAt, Nat.add_mod, Nat.mod_eq_zero_of_dvd hdvd, Nat.add_zero, Nat.mod_mod,
    Nat.mod_eq_of_lt hp]

theorem cycleAt_mod_gcd (n m p k : Nat) :
    cycleAt n m p k % Nat.gcd n m = p % Nat.gcd n m := by
  rw [cycleAt, Nat.mod_mod_of_dvd _ (Nat.gcd_dvd_left n m), Nat.add_mod,
    Nat.mod_eq_zero_of_dvd (Dvd.dvd.mul_left (Nat.gcd_dvd_right n m) k), Nat.add_zero, Nat.mod_mod]

/-- The cycle of `p` meets every index congruent to it. -/
theorem exists_cycleAt (hn : 0 < n) {q : Nat} (hq : q < n)
    (h : q % Nat.gcd n m = p % Nat.gcd n m) :
    ∃ k < cyclePeriod n m, cycleAt n m p k = q := by
  have hg : 0 < Nat.gcd n m := Nat.gcd_pos_of_pos_left m hn
  have hperiod : 0 < cyclePeriod n m := Nat.div_pos (Nat.gcd_le_left m hn) hg
  -- some number of shifts reaches `q`, and whole periods may be dropped from it
  have hreach : ∃ k, cycleAt n m p k = q := by
    have hcongr : (q : Int) ≡ p [ZMOD (Nat.gcd n m : Int)] := by
      rw [Int.ModEq]
      exact_mod_cast h
    obtain ⟨c, hc⟩ := hcongr.symm.dvd
    have hbez := Nat.gcd_eq_gcd_ab n m
    -- `q - p` as a multiple of `m` modulo `n`
    have hmul : (q : Int) ≡ p + (Nat.gcdB n m * c) * m [ZMOD n] := by
      refine (Int.modEq_iff_dvd.mpr ⟨-(Nat.gcdA n m * c), ?_⟩)
      rw [hbez] at hc
      linear_combination -hc
    refine ⟨((Nat.gcdB n m * c) % n).toNat, ?_⟩
    have hnonneg : 0 ≤ (Nat.gcdB n m * c) % (n : Int) :=
      Int.emod_nonneg _ (by exact_mod_cast hn.ne')
    have hcast : ((cycleAt n m p ((Nat.gcdB n m * c) % n).toNat : Nat) : Int) = q := by
      have hsame : ((p : Int) + ((Nat.gcdB n m * c) % n) * m) ≡ q [ZMOD n] :=
        ((Int.mod_modEq (Nat.gcdB n m * c) n).mul_right m).add_left p |>.trans hmul.symm
      rw [cycleAt]
      push_cast
      rw [Int.toNat_of_nonneg hnonneg, hsame]
      exact Int.emod_eq_of_lt (by omega) (by exact_mod_cast hq)
    exact_mod_cast hcast
  obtain ⟨k, hk⟩ := hreach
  refine ⟨k % cyclePeriod n m, Nat.mod_lt _ hperiod, ?_⟩
  rw [← hk, cycleAt, cycleAt]
  have hdvd : n ∣ (k - k % cyclePeriod n m) * m :=
    (dvd_mul_iff_period_dvd hn _).mpr (Nat.dvd_sub_mod k)
  have hle : p + k % cyclePeriod n m * m ≤ p + k * m :=
    Nat.add_le_add_left (Nat.mul_le_mul_right m (Nat.mod_le _ _)) p
  apply (Nat.modEq_iff_dvd' hle).mpr
  rw [Nat.add_sub_add_left, ← Nat.sub_mul]
  exact hdvd

end EARanges.Support
