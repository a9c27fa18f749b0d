import EARanges.Iterator.DiffmaxBits

/-!
# The difference type of an integer

view/iota.hpp, `promote_as_signed_` and `iota_difference_t`. The difference type of an integer
is wider than it: `int` for the types promoted to `int`, 64 bits for 32, and `diffmax_t` for 64.
The operations a counting view uses are fields; `Exact` says where they agree with those on
integers.
-/
namespace EARanges.Iterator
open EARanges.Support

structure DifferenceType where
  Carrier : Type
  value : Carrier → Int
  ofIntegral : (t : IntType) → t.Value → Exec Carrier
  toIntegral : (t : IntType) → Carrier → Exec t.Value
  ofBool : Bool → Carrier
  neg : Carrier → Exec Carrier
  add : Carrier → Carrier → Exec Carrier
  sub : Carrier → Carrier → Exec Carrier
  lt : Carrier → Carrier → Bool
  plusAssign : (t : IntType) → t.Value → Carrier → Exec t.Value

namespace DifferenceType

/-- A signed type at least as wide as the types it is the difference of. -/
def fixed (d : IntType) : DifferenceType where
  Carrier := d.Value
  value x := x.1
  ofIntegral _ x := .ok (d.convert x.1)
  toIntegral t x := .ok (t.convert x.1)
  ofBool b := d.convert b.toNat
  neg x := d.result (-x.1)
  add x y := d.result (x.1 + y.1)
  sub x y := d.result (x.1 - y.1)
  lt x y := decide (x.1 < y.1)
  plusAssign t i n := do
    let sum ← d.result (i.1 + n.1)
    .ok (t.convert sum.1)

def diffmax : DifferenceType where
  Carrier := DiffmaxT
  value := DiffmaxT.v
  ofIntegral := DiffmaxT.ofIntegral
  toIntegral := DiffmaxT.toIntegral
  ofBool b := DiffmaxT.ofTag false (if b then 1 else 0)
  neg x := .ok (DiffmaxT.negate x)
  add x y := .ok (DiffmaxT.add x y)
  sub x y := .ok (DiffmaxT.sub x y)
  lt := DiffmaxT.lt
  plusAssign t i n := do
    let i ← DiffmaxT.ofIntegral t i
    DiffmaxT.toIntegral t (DiffmaxT.add i n)

/-- `promote_as_signed_` for the widths of promoted types. -/
def promoteAsSigned (width : Nat) : DifferenceType :=
  if width < 64 then fixed IntType.int64 else diffmax

/-- `iter_difference_t`: the signed counterpart of the type of `i - j`. -/
def iterDifference (t : IntType) : IntType := t.promoted.makeSigned

def iotaDifference (t : IntType) : DifferenceType :=
  if t.width = (iterDifference t).width then promoteAsSigned (iterDifference t).width
  else fixed (iterDifference t)

/-- The operations are exact on results of absolute value at most `bound`, and on the values
of `t` that are `convertible`. -/
structure Exact (D : DifferenceType) (t : IntType) (convertible : t.Value → Prop) (bound : Nat) :
    Prop where
  span : t.max - t.min ≤ bound
  ofBool : ∀ b, D.value (D.ofBool b) = if b then 1 else 0
  neg : ∀ x, (-D.value x).natAbs ≤ bound → ∃ y, D.neg x = .ok y ∧ D.value y = -D.value x
  add : ∀ x y, (D.value x + D.value y).natAbs ≤ bound →
    ∃ z, D.add x y = .ok z ∧ D.value z = D.value x + D.value y
  sub : ∀ x y, (D.value x - D.value y).natAbs ≤ bound →
    ∃ z, D.sub x y = .ok z ∧ D.value z = D.value x - D.value y
  lt : ∀ x y, D.lt x y = true ↔ D.value x < D.value y
  ofIntegral : t.signed = true → ∀ i, convertible i →
    ∃ x, D.ofIntegral t i = .ok x ∧ D.value x = i.1
  ofDifference : t.signed = false → ∀ i : t.promoted.Value, 0 ≤ i.1 → i.1 ≤ t.max →
    ∃ x, D.ofIntegral t.promoted i = .ok x ∧ D.value x = i.1
  toIntegral : t.signed = false → ∀ x i, D.value x = i.1 → D.toIntegral t x = .ok i
  plusAssign : t.signed = true → ∀ n i j, convertible i → convertible j →
    D.value n = j.1 - i.1 → D.plusAssign t i n = .ok j

/-! ## The three difference types -/

/-- The differences of a type are values of every wider signed type. -/
theorem span_le_of_wider {d t : IntType} (hd : d.signed = true) (hwidth : t.width < d.width) :
    t.max - t.min ≤ d.max := by
  have hpow : (2 : Int) ^ t.width ≤ 2 ^ (d.width - 1) := by
    have hnat : 2 ^ t.width ≤ 2 ^ (d.width - 1) := Nat.pow_le_pow_right (by decide) (by omega)
    exact_mod_cast hnat
  rw [t.span_eq, IntType.max_of_signed hd]
  omega

theorem value_of_wider {d t : IntType} (hd : d.signed = true) (hwidth : t.width < d.width)
    {n : Int} (hn : t.min ≤ n ∧ n ≤ t.max) : d.min ≤ n ∧ n ≤ d.max := by
  have hspan := span_le_of_wider hd hwidth
  have hmin := IntType.min_of_signed hd
  have hmax := IntType.max_of_signed hd
  have hzero := t.zero_bounds
  omega

theorem exact_fixed {d t : IntType} (hd : d.signed = true) (hwidth : t.width < d.width) :
    Exact (fixed d) t (fun _ => True) d.max.toNat := by
  have hmin := IntType.min_of_signed hd
  have hmax := IntType.max_of_signed hd
  have hzero := d.zero_bounds
  -- a result within the bound is a value of the type
  have hresult : ∀ n : Int, n.natAbs ≤ d.max.toNat → d.min ≤ n ∧ n ≤ d.max := by
    intro n hn
    omega
  have hvalue : ∀ i : t.Value, d.min ≤ i.1 ∧ i.1 ≤ d.max := fun i => value_of_wider hd hwidth i.2
  exact {
    span := by
      have hspan := span_le_of_wider hd hwidth
      omega
    ofBool := by
      intro b
      have hone : (1 : Int) ≤ d.max := by
        have hspan := span_le_of_wider hd hwidth
        have hvalues := t.one_lt_span
        omega
      cases b with
      | false => exact IntType.wrap_of_bounds hzero
      | true => exact IntType.wrap_of_bounds ⟨by omega, hone⟩
    neg := fun x h => ⟨_, IntType.result_ok (hresult _ h), rfl⟩
    add := fun x y h => ⟨_, IntType.result_ok (hresult _ h), rfl⟩
    sub := fun x y h => ⟨_, IntType.result_ok (hresult _ h), rfl⟩
    lt := fun x y => decide_eq_true_iff
    ofIntegral := fun _ i _ => ⟨_, rfl, IntType.wrap_of_bounds (hvalue i)⟩
    ofDifference := by
      intro ht i hlow hhigh
      have hlow' : t.min ≤ i.1 := Int.le_trans t.zero_bounds.1 hlow
      exact ⟨_, rfl, IntType.wrap_of_bounds (value_of_wider hd hwidth ⟨hlow', hhigh⟩)⟩
    toIntegral := by
      intro _ x i h
      have hx : x.1 = i.1 := h
      show Except.ok (t.convert x.1) = Except.ok i
      rw [hx, IntType.convert_value]
    plusAssign := by
      intro _ n i j _ _ hn
      have hsum : i.1 + n.1 = j.1 := by
        have hn' : n.1 = j.1 - i.1 := hn
        omega
      show ((d.result (i.1 + n.1)).bind fun sum => Except.ok (t.convert sum.1)) = Except.ok j
      rw [hsum, IntType.result_ok (hvalue j)]
      exact congrArg Except.ok (IntType.convert_value j) }

theorem exact_diffmax (t : IntType) :
    Exact diffmax t (fun i => ¬ (32 ≤ t.width ∧ i.1 = t.min)) (2 ^ 64 - 1) := by
  have hfits : ∀ n : Int, n.natAbs ≤ 2 ^ 64 - 1 → DiffmaxT.Fits n := by
    intro n hn
    unfold DiffmaxT.Fits
    omega
  exact {
    span := by
      have hpow : (2 : Int) ^ t.width ≤ 2 ^ 64 := by
        have hnat : 2 ^ t.width ≤ 2 ^ 64 := Nat.pow_le_pow_right (by decide) t.width_le
        exact_mod_cast hnat
      rw [t.span_eq]
      omega
    ofBool := by
      intro b
      cases b <;> rfl
    neg := fun x _ => ⟨_, rfl, DiffmaxT.v_negate x⟩
    add := fun x y h => ⟨_, rfl, DiffmaxT.v_add x y (hfits _ h)⟩
    sub := fun x y h => ⟨_, rfl, DiffmaxT.v_sub x y (hfits _ h)⟩
    lt := DiffmaxT.lt_iff
    ofIntegral := fun _ _ hmin => DiffmaxT.ofIntegral_ok fun _ => hmin
    ofDifference := by
      intro ht i hlow _
      refine DiffmaxT.ofIntegral_ok fun hs hmin => ?_
      have hpos : (0 : Int) < 2 ^ (t.promoted.width - 1) := Int.pow_pos (by decide)
      have hbound := IntType.min_of_signed hs
      omega
    toIntegral := by
      intro ht x i hx
      exact DiffmaxT.toIntegral_ok hx fun hs => absurd hs (by simp [ht])
    plusAssign := by
      intro _ n i j hi hj hn
      obtain ⟨d, hd, hv⟩ := DiffmaxT.ofIntegral_ok fun _ => hi
      have hexact : d.v + DiffmaxT.v n = j.1 := by
        have hn' : DiffmaxT.v n = j.1 - i.1 := hn
        omega
      have hsum : (DiffmaxT.add d n).v = j.1 := by
        refine (DiffmaxT.v_add d n ?_).trans hexact
        rw [DiffmaxT.Fits, hexact]
        exact t.natAbs_lt j.2
      show (DiffmaxT.ofIntegral t i).bind (fun d => DiffmaxT.toIntegral t (DiffmaxT.add d n)) = _
      rw [hd]
      exact DiffmaxT.toIntegral_ok hsum fun _ => hj }

/-- Up to 32 bits every difference and the one after the last is exact. -/
theorem exact_iotaDifference_narrow {t : IntType} (h : t.width < 64) :
    ∃ bound : Nat, 2 ^ t.width ≤ bound ∧ Exact (iotaDifference t) t (fun _ => True) bound := by
  rcases Nat.lt_or_ge t.width 32 with hnarrow | hwide
  · have hint : t.promoted = IntType.int := if_pos hnarrow
    have hpow : 2 ^ t.width ≤ IntType.int.max.toNat := by
      have hfixed := t.fixed
      have hnat : 2 ^ t.width ≤ 2 ^ 16 := Nat.pow_le_pow_right (by decide) (by omega)
      exact Nat.le_trans hnat (by decide)
    refine ⟨IntType.int.max.toNat, hpow, ?_⟩
    have hfixed : iotaDifference t = fixed IntType.int := by
      rw [iotaDifference, iterDifference, hint]
      exact if_neg (Nat.ne_of_lt hnarrow)
    exact hfixed ▸ exact_fixed rfl hnarrow
  · have hself : t.promoted = t := IntType.promoted_of_wide hwide
    have hpow : 2 ^ t.width ≤ IntType.int64.max.toNat := by
      have hfixed := t.fixed
      have hnat : 2 ^ t.width ≤ 2 ^ 32 := Nat.pow_le_pow_right (by decide) (by omega)
      exact Nat.le_trans hnat (by decide)
    refine ⟨IntType.int64.max.toNat, hpow, ?_⟩
    have hfixed : iotaDifference t = fixed IntType.int64 := by
      rw [iotaDifference, iterDifference, hself]
      exact (if_pos rfl).trans (if_pos h)
    exact hfixed ▸ exact_fixed rfl h

theorem iotaDifference_wide {t : IntType} (h : t.width = 64) : iotaDifference t = diffmax := by
  have hself : t.promoted = t := IntType.promoted_of_wide (by omega)
  have hnot : ¬ t.makeSigned.width < 64 := Nat.not_lt.mpr (Nat.le_of_eq h.symm)
  rw [iotaDifference, iterDifference, hself]
  exact (if_pos rfl).trans (if_neg hnot)

end DifferenceType

end EARanges.Iterator
