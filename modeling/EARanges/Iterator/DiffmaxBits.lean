import EARanges.Iterator.DiffmaxT
import EARanges.Iterator.IntType
import EARanges.Support.TwosComplement

/-!
# Bit operations and conversions of `diffmax_t`

iterator/diffmax_t.hpp, `compl_if` and what follows it, the constructor from an integral type
and `operator T`. The bitwise operators go through the 64-bit complement; the shifts move the
magnitude. A shift of a word by its width or more is undefined.
-/
namespace EARanges.Iterator
open EARanges.Support

namespace DiffmaxT

def complIf (neg : Bool) (val : Word64) : Word64 := if neg then ~~~val + 1 else val

def bitAnd (a b : DiffmaxT) : DiffmaxT :=
  normalize (a.neg && b.neg)
    (complIf (a.neg && b.neg) (complIf a.neg a.val &&& complIf b.neg b.val))

def bitOr (a b : DiffmaxT) : DiffmaxT :=
  normalize (a.neg || b.neg)
    (complIf (a.neg || b.neg) (complIf a.neg a.val ||| complIf b.neg b.val))

def bitXor (a b : DiffmaxT) : DiffmaxT :=
  normalize (a.neg ^^ b.neg)
    (complIf (a.neg ^^ b.neg) (complIf a.neg a.val ^^^ complIf b.neg b.val))

/-- `<<` and `>>` of `uintmax_t`. -/
def wordShiftLeft (x y : Word64) : Exec Word64 :=
  if y.toNat < 64 then .ok (x <<< y.toNat) else .error .fault

def wordShiftRight (x y : Word64) : Exec Word64 :=
  if y.toNat < 64 then .ok (x >>> y.toNat) else .error .fault

def shiftLeft (a b : DiffmaxT) : Exec DiffmaxT :=
  if a.neg then .error .fault
  else if b.neg then do
    let val ← wordShiftRight a.val b.val
    .ok (ofTag false val)
  else do
    let val ← wordShiftLeft a.val b.val
    .ok (ofTag false val)

def shiftRight (a b : DiffmaxT) : Exec DiffmaxT :=
  if b.neg then do
    let val ← wordShiftLeft a.val b.val
    .ok (ofTag a.neg val)
  else do
    let val ← wordShiftRight a.val b.val
    .ok (ofTag a.neg val)

/-- Compound assignments, as in the arithmetic part. -/
def andAssign (a b : DiffmaxT) : DiffmaxT := bitAnd a b

def orAssign (a b : DiffmaxT) : DiffmaxT := bitOr a b

def xorAssign (a b : DiffmaxT) : DiffmaxT := bitXor a b

def shiftLeftAssign (a b : DiffmaxT) : Exec DiffmaxT := shiftLeft a b

def shiftRightAssign (a b : DiffmaxT) : Exec DiffmaxT := shiftRight a b

/-- `static_cast<uintmax_t>`. -/
def uintmax (n : Int) : Word64 := BitVec.ofInt 64 n

/-- No negative value of an integer type has the word zero. -/
theorem uintmax_neg_ne_zero {t : IntType} {val : t.Value} (hneg : 0 > val.1) :
    uintmax (-val.1) ≠ 0 := by
  intro hzero
  have habs := toNat_ofInt_of_nonneg (Int.neg_nonneg_of_nonpos (Int.le_of_lt hneg))
    (by rw [Int.natAbs_neg]; exact t.natAbs_lt val.2)
  rw [uintmax] at hzero
  rw [hzero, Int.natAbs_neg] at habs
  have hval : val.1.natAbs = 0 := habs.symm
  omega

/-- The constructor from an integral type. The negation is an operation of the promoted type,
signed where `val` is negative, so a result it has is exact. -/
def ofIntegral (t : IntType) (val : t.Value) : Exec DiffmaxT :=
  if h : 0 > val.1 then do
    let _ ← t.promoted.result (-val.1)
    .ok ⟨true, uintmax (-val.1), fun _ => uintmax_neg_ne_zero h⟩
  else .ok ⟨false, uintmax val.1, fun h => absurd h Bool.false_ne_true⟩

/-- `operator T`. -/
def toIntegral (t : IntType) (a : DiffmaxT) : Exec t.Value :=
  if a.neg then do
    let negated ← t.promoted.result (-(t.convert a.val.toNat).1)
    .ok (t.convert negated.1)
  else .ok (t.convert a.val.toNat)

/-! ## The bitwise operators -/

theorem neg_eq (a : DiffmaxT) : a.neg = decide (a.v < 0) := by
  cases hn : a.neg with
  | true =>
    have hpos := a.toNat_pos_of_neg hn
    have hv := v_of_neg hn
    exact (decide_eq_true (by omega)).symm
  | false =>
    have hv := v_of_not_neg hn
    exact (decide_eq_false (by omega)).symm

theorem complIf_eq (neg : Bool) (val : Word64) : complIf neg val = if neg then -val else val := by
  rw [complIf, BitVec.neg_eq_not_add]
  rfl

/-- An operand is widened to its complement. -/
theorem complIf_operand (a : DiffmaxT) : complIf a.neg a.val = BitVec.ofInt 64 a.v := by
  rw [complIf_eq]
  cases hn : a.neg with
  | true => rw [if_pos rfl, v_of_neg hn, BitVec.ofInt_neg, BitVec.ofInt_natCast,
      BitVec.ofNat_toNat, BitVec.setWidth_eq]
  | false => rw [if_neg Bool.false_ne_true, v_of_not_neg hn, BitVec.ofInt_natCast,
      BitVec.ofNat_toNat, BitVec.setWidth_eq]

/-- A result is read back from its complement and its sign. -/
theorem v_result {neg : Bool} {n : Int} (hsign : neg = true ↔ n < 0) (hfit : Fits n) :
    (normalize neg (complIf neg (BitVec.ofInt 64 n))).v = n := by
  have hmagnitude := toNat_magnitude hfit
  rw [v_normalize, complIf_eq]
  by_cases hneg : n < 0
  · rw [if_pos hneg] at hmagnitude
    rw [hsign.mpr hneg, if_pos rfl, if_pos rfl, hmagnitude]
    omega
  · rw [if_neg hneg] at hmagnitude
    rw [Bool.eq_false_iff.mpr (mt hsign.mp hneg), if_neg Bool.false_ne_true,
      if_neg Bool.false_ne_true, hmagnitude]
    omega

theorem v_bitAnd (a b : DiffmaxT) (h : Fits (Int.land a.v b.v)) :
    (bitAnd a b).v = Int.land a.v b.v := by
  rw [bitAnd, complIf_operand, complIf_operand, ← ofInt_land]
  refine v_result ?_ h
  rw [neg_eq, neg_eq, land_neg_iff, Bool.and_eq_true, decide_eq_true_iff, decide_eq_true_iff]

theorem v_bitOr (a b : DiffmaxT) (h : Fits (Int.lor a.v b.v)) :
    (bitOr a b).v = Int.lor a.v b.v := by
  rw [bitOr, complIf_operand, complIf_operand, ← ofInt_lor]
  refine v_result ?_ h
  rw [neg_eq, neg_eq, lor_neg_iff, Bool.or_eq_true, decide_eq_true_iff, decide_eq_true_iff]

theorem v_bitXor (a b : DiffmaxT) (h : Fits (Int.xor a.v b.v)) :
    (bitXor a b).v = Int.xor a.v b.v := by
  rw [bitXor, complIf_operand, complIf_operand, ← ofInt_xor]
  refine v_result ?_ h
  rw [neg_eq, neg_eq, xor_neg_iff]
  by_cases ha : a.v < 0 <;> by_cases hb : b.v < 0 <;> simp [ha, hb]

/-! ## The shifts -/

/-- A shift count of less than 64, as the word operators see it. -/
theorem count_of_range {b : DiffmaxT} (hlow : 0 ≤ b.v) (hhigh : b.v < 64) :
    b.neg = false ∧ b.val.toNat = b.v.toNat ∧ b.val.toNat < 64 := by
  have hneg : b.neg = false := by
    rw [neg_eq]
    exact decide_eq_false (Int.not_lt.mpr hlow)
  have hv := v_of_not_neg hneg
  exact ⟨hneg, by omega, by omega⟩

theorem v_shiftLeft {a b : DiffmaxT} (ha : 0 ≤ a.v) (hlow : 0 ≤ b.v) (hhigh : b.v < 64)
    (hfit : Fits (a.v * 2 ^ b.v.toNat)) :
    ∃ c, shiftLeft a b = .ok c ∧ c.v = a.v * 2 ^ b.v.toNat := by
  obtain ⟨hbneg, hcount, hlt⟩ := count_of_range hlow hhigh
  have haneg : a.neg = false := by
    rw [neg_eq]
    exact decide_eq_false (Int.not_lt.mpr ha)
  rw [v_of_not_neg haneg] at hfit ⊢
  have hbound : a.val.toNat * 2 ^ b.val.toNat < 2 ^ 64 := by
    rw [hcount]
    rwa [Fits, Int.natAbs_mul, Int.natAbs_natCast, Int.natAbs_pow] at hfit
  refine ⟨ofTag false (a.val <<< b.val.toNat), ?_, ?_⟩
  · simp [shiftLeft, haneg, hbneg, wordShiftLeft, hlt]
  · rw [v_ofTag, if_neg Bool.false_ne_true, BitVec.toNat_shiftLeft, Nat.shiftLeft_eq,
      Nat.mod_eq_of_lt hbound, ← hcount]
    push_cast
    rfl

theorem shiftRight_eq {a b : DiffmaxT} (hlow : 0 ≤ b.v) (hhigh : b.v < 64) :
    shiftRight a b = .ok (ofTag a.neg (a.val >>> b.v.toNat)) := by
  obtain ⟨hbneg, hcount, hlt⟩ := count_of_range hlow hhigh
  simp [shiftRight, hbneg, wordShiftRight, hlt, ← hcount]

/-- The magnitude is halved, so the quotient is cut toward zero. -/
theorem v_shiftRight_tdiv (a : DiffmaxT) (n : Nat) :
    (ofTag a.neg (a.val >>> n)).v = a.v.tdiv (2 ^ n) := by
  rw [v_ofTag, BitVec.toNat_ushiftRight, Nat.shiftRight_eq_div_pow, v]
  cases a.neg <;> simp

theorem tdiv_eq_fdiv_iff {x y : Int} (hy : 0 < y) : x.tdiv y = x.fdiv y ↔ 0 ≤ x ∨ y ∣ x := by
  rw [Int.tdiv_eq_ediv, Int.fdiv_eq_ediv_of_nonneg _ (Int.le_of_lt hy), Int.sign_eq_one_of_pos hy]
  by_cases h : 0 ≤ x ∨ y ∣ x
  · simp [h]
  · simp [h]

/-! ## The conversions -/

theorem ofIntegral_of_nonneg {t : IntType} {x : t.Value} (hx : 0 ≤ x.1) :
    ∃ d, ofIntegral t x = .ok d ∧ d.neg = false ∧ d.val.toNat = x.1.natAbs :=
  ⟨⟨false, uintmax x.1, fun h => absurd h Bool.false_ne_true⟩, dif_neg (Int.not_lt.mpr hx), rfl,
    toNat_ofInt_of_nonneg hx (t.natAbs_lt x.2)⟩

theorem ofIntegral_of_neg {t : IntType} {x : t.Value} (hx : x.1 < 0)
    (hneg : t.promoted.min ≤ -x.1 ∧ -x.1 ≤ t.promoted.max) :
    ∃ d, ofIntegral t x = .ok d ∧ d.neg = true ∧ d.val.toNat = x.1.natAbs := by
  refine ⟨⟨true, uintmax (-x.1), fun _ => uintmax_neg_ne_zero hx⟩, ?_, rfl, ?_⟩
  · rw [ofIntegral, dif_pos hx, IntType.result_ok hneg]
    rfl
  · have hlt := t.natAbs_lt x.2
    have hword := toNat_ofInt_of_nonneg (w := 64) (Int.neg_nonneg_of_nonpos (Int.le_of_lt hx))
      (by rwa [Int.natAbs_neg])
    rwa [Int.natAbs_neg] at hword

theorem toIntegral_of_nonneg {t : IntType} {x : t.Value} {d : DiffmaxT} (hx : 0 ≤ x.1)
    (hneg : d.neg = false) (hval : d.val.toNat = x.1.natAbs) : toIntegral t d = .ok x := by
  have hnat : ((x.1.natAbs : Nat) : Int) = x.1 := Int.natAbs_of_nonneg hx
  rw [toIntegral, hneg, if_neg Bool.false_ne_true, hval, hnat, IntType.convert_value]

theorem toIntegral_of_neg {t : IntType} {x : t.Value} {d : DiffmaxT} (ht : t.signed = true)
    (hx : x.1 < 0) (hmin : ¬ (32 ≤ t.width ∧ x.1 = t.min)) (hneg : d.neg = true)
    (hval : d.val.toNat = x.1.natAbs) : toIntegral t d = .ok x := by
  have hnat : ((x.1.natAbs : Nat) : Int) = -x.1 := by omega
  have hword : t.promoted.min ≤ -(t.convert (-x.1)).1 ∧ -(t.convert (-x.1)).1 ≤ t.promoted.max := by
    refine (IntType.neg_promoted_iff ht).mpr ?_
    rintro ⟨hwide, hlow⟩
    -- a wide type holds `-x`, so its word is not the minimum
    have hfit := (IntType.neg_promoted_iff ht).mpr hmin
    rw [IntType.promoted_of_wide hwide] at hfit
    have hself : (t.convert (-x.1)).1 = -x.1 := IntType.wrap_of_bounds hfit
    have hxlow := x.2.1
    omega
  rw [toIntegral, if_pos hneg, hval, hnat, IntType.result_ok hword]
  show Except.ok (t.convert (-(t.convert (-x.1)).1)) = Except.ok x
  rw [IntType.convert_neg_convert, Int.neg_neg, IntType.convert_value]

/-- The constructor is exact but where it negates the minimum of a type that is not promoted. -/
theorem ofIntegral_ok {t : IntType} {x : t.Value}
    (hmin : t.signed = true → ¬ (32 ≤ t.width ∧ x.1 = t.min)) :
    ∃ d, ofIntegral t x = .ok d ∧ d.v = x.1 := by
  rcases Int.lt_or_le x.1 0 with hx | hx
  · cases ht : t.signed with
    | false => exact absurd hx (Int.not_lt.mpr (IntType.nonneg_of_unsigned ht))
    | true =>
      obtain ⟨d, hd, hneg, hval⟩ :=
        ofIntegral_of_neg hx ((IntType.neg_promoted_iff ht).mpr (hmin ht))
      refine ⟨d, hd, ?_⟩
      rw [v_of_neg hneg, hval]
      omega
  · obtain ⟨d, hd, hneg, hval⟩ := ofIntegral_of_nonneg hx
    refine ⟨d, hd, ?_⟩
    rw [v_of_not_neg hneg, hval]
    omega

theorem toIntegral_ok {t : IntType} {x : t.Value} {d : DiffmaxT} (hd : d.v = x.1)
    (hmin : t.signed = true → ¬ (32 ≤ t.width ∧ x.1 = t.min)) : toIntegral t d = .ok x := by
  have hval : d.val.toNat = x.1.natAbs := by rw [← v_natAbs, hd]
  rcases Int.lt_or_le x.1 0 with hx | hx
  · cases ht : t.signed with
    | false => exact absurd hx (Int.not_lt.mpr (IntType.nonneg_of_unsigned ht))
    | true =>
      refine toIntegral_of_neg ht hx (hmin ht) ?_ hval
      rw [neg_eq, hd]
      exact decide_eq_true hx
  · refine toIntegral_of_nonneg hx ?_ hval
    rw [neg_eq, hd]
    exact decide_eq_false (Int.not_lt.mpr hx)

/-- The negation of the minimum overflows. -/
theorem ofIntegral_fault {t : IntType} {x : t.Value} (ht : t.signed = true)
    (hmin : 32 ≤ t.width ∧ x.1 = t.min) : ofIntegral t x = .error .fault := by
  have hx : x.1 < 0 := by
    have hpos : (0 : Int) < 2 ^ (t.width - 1) := Int.pow_pos (by decide)
    rw [hmin.2, IntType.min_of_signed ht]
    omega
  have hout := mt (IntType.neg_promoted_iff ht).mp (not_not_intro hmin)
  rw [ofIntegral, dif_pos hx, IntType.result_fault (IntType.promoted_signed ht) hout]
  rfl

/-- Conversion to `diffmax_t` and back. -/
def RoundTrip (t : IntType) (x : t.Value) : Prop :=
  ∃ d, ofIntegral t x = .ok d ∧ d.v = x.1 ∧ toIntegral t d = .ok x

theorem roundTrip_iff {t : IntType} {x : t.Value} (ht : t.signed = true) :
    RoundTrip t x ↔ ¬ (32 ≤ t.width ∧ x.1 = t.min) := by
  constructor
  · rintro ⟨d, hd, _, _⟩ hmin
    rw [ofIntegral_fault ht hmin] at hd
    cases hd
  · intro hmin
    obtain ⟨d, hd, hv⟩ := ofIntegral_ok (x := x) fun _ => hmin
    exact ⟨d, hd, hv, toIntegral_ok hv fun _ => hmin⟩

/-! ## The laws of infinite two's complement -/

/-- The bit operations agree with those on integers at `a` and `b`, and `x` of the type `t` is
converted and converted back. -/
structure BitLaws (a b : DiffmaxT) (t : IntType) (x : t.Value) : Prop where
  bitAnd : Fits (Int.land a.v b.v) →
    (bitAnd a b).v = Int.land a.v b.v ∧ (andAssign a b).v = Int.land a.v b.v
  bitOr : Fits (Int.lor a.v b.v) →
    (bitOr a b).v = Int.lor a.v b.v ∧ (orAssign a b).v = Int.lor a.v b.v
  bitXor : Fits (Int.xor a.v b.v) →
    (bitXor a b).v = Int.xor a.v b.v ∧ (xorAssign a b).v = Int.xor a.v b.v
  shiftLeft : 0 ≤ b.v → b.v < 64 → 0 ≤ a.v → Fits (a.v * 2 ^ b.v.toNat) →
    ∃ c, shiftLeft a b = .ok c ∧ shiftLeftAssign a b = .ok c ∧ c.v = a.v * 2 ^ b.v.toNat
  shiftRight : 0 ≤ b.v → b.v < 64 →
    ∃ c, shiftRight a b = .ok c ∧ shiftRightAssign a b = .ok c ∧ c.v = a.v.fdiv (2 ^ b.v.toNat)
  roundTrip : t.signed = true → RoundTrip t x

/-- The laws hold where no set bit is shifted out of a negative value, and where the value
converted is not the minimum of a type of `int`'s width or more. -/
theorem bitLaws_iff (a b : DiffmaxT) (t : IntType) (x : t.Value) :
    BitLaws a b t x ↔
      (0 ≤ b.v ∧ b.v < 64 → 0 ≤ a.v ∨ 2 ^ b.v.toNat ∣ a.v) ∧
        ¬ (t.signed = true ∧ 32 ≤ t.width ∧ x.1 = t.min) := by
  have hpos : (0 : Int) < 2 ^ b.v.toNat := Int.pow_pos (by decide)
  constructor
  · intro laws
    refine ⟨fun ⟨hlow, hhigh⟩ => ?_,
      fun ⟨ht, hmin⟩ => (roundTrip_iff ht).mp (laws.roundTrip ht) hmin⟩
    obtain ⟨c, hc, _, hv⟩ := laws.shiftRight hlow hhigh
    rw [shiftRight_eq hlow hhigh] at hc
    rw [← Except.ok.inj hc, v_shiftRight_tdiv] at hv
    exact (tdiv_eq_fdiv_iff hpos).mp hv
  · rintro ⟨hshift, hmin⟩
    exact {
      bitAnd := fun h => ⟨v_bitAnd a b h, v_bitAnd a b h⟩
      bitOr := fun h => ⟨v_bitOr a b h, v_bitOr a b h⟩
      bitXor := fun h => ⟨v_bitXor a b h, v_bitXor a b h⟩
      shiftLeft := by
        intro hlow hhigh ha hfit
        obtain ⟨c, hc, hv⟩ := v_shiftLeft ha hlow hhigh hfit
        exact ⟨c, hc, hc, hv⟩
      shiftRight := by
        intro hlow hhigh
        have hc := shiftRight_eq (a := a) hlow hhigh
        refine ⟨_, hc, hc, ?_⟩
        rw [v_shiftRight_tdiv]
        exact (tdiv_eq_fdiv_iff hpos).mpr (hshift ⟨hlow, hhigh⟩)
      roundTrip := fun ht => (roundTrip_iff ht).mpr fun h => hmin ⟨ht, h⟩ }

/-- `-3 >> 1` is `-1`, and `INT_MIN` is negated as an `int`. -/
theorem bitLaws_negative :
    ¬ BitLaws ⟨true, 3, by decide⟩ ⟨false, 1, by decide⟩ IntType.int ⟨-2147483648, by decide⟩ := by
  intro laws
  obtain ⟨c, hc, _, hv⟩ := laws.shiftRight (by decide) (by decide)
  have hquotient : c = ofTag true 1 := (Except.ok.inj hc).symm
  rw [hquotient] at hv
  exact absurd hv (by decide)

end DiffmaxT

end EARanges.Iterator
