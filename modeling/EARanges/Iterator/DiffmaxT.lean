import Mathlib.Data.Int.Order.Basic
import Mathlib.Tactic.Ring

/-!
# `diffmax_t`, a sign-magnitude integer

iterator/diffmax_t.hpp. The magnitude is a 64-bit word with wrapping arithmetic
(`uintmax_t`). What `_check` demands, no negative zero, is a field, so every
operator below proves it for the pair it builds. Comparisons call `_check`, which
therefore cannot fail here.
-/
namespace EARanges.Iterator

abbrev Word64 := BitVec 64

structure DiffmaxT where
  neg : Bool
  val : Word64
  check : neg = true → val ≠ 0

namespace DiffmaxT

/-- The flag the source stores is `val && neg`, so it is clear on a zero magnitude. -/
theorem ne_zero_of_flag {neg : Bool} {val : Word64} (h : (val != 0 && neg) = true) : val ≠ 0 := by
  rw [Bool.and_eq_true, bne_iff_ne] at h
  exact h.1

/-- The tagged constructor, and `_normalize`, which conjoins `val` once more. -/
def ofTag (neg : Bool) (val : Word64) : DiffmaxT :=
  ⟨val != 0 && neg, val, ne_zero_of_flag⟩

def normalize (neg : Bool) (val : Word64) : DiffmaxT := ofTag (val != 0 && neg) val

def lt (a b : DiffmaxT) : Bool :=
  if a.neg then (if b.neg then decide (a.val > b.val) else true)
  else (if b.neg then false else decide (a.val < b.val))

def gt (a b : DiffmaxT) : Bool := lt b a

def le (a b : DiffmaxT) : Bool := !lt b a

def ge (a b : DiffmaxT) : Bool := !lt a b

def eq (a b : DiffmaxT) : Bool := a.val == b.val && a.neg == b.neg

def ne (a b : DiffmaxT) : Bool := !eq a b

def plus (a : DiffmaxT) : DiffmaxT := a

def negate (a : DiffmaxT) : DiffmaxT := normalize (!a.neg) a.val

def add (a b : DiffmaxT) : DiffmaxT :=
  if a.neg = b.neg then ofTag a.neg (a.val + b.val)
  else if a.neg then
    if a.val > b.val then ofTag true (a.val - b.val) else ofTag false (b.val - a.val)
  else
    if b.val > a.val then ofTag true (b.val - a.val) else ofTag false (a.val - b.val)

def sub (a b : DiffmaxT) : DiffmaxT := add a (negate b)

def mul (a b : DiffmaxT) : DiffmaxT := normalize (a.neg ^^ b.neg) (a.val * b.val)

def div (a b : DiffmaxT) : DiffmaxT := normalize (a.neg ^^ b.neg) (a.val / b.val)

def mod (a b : DiffmaxT) : DiffmaxT := normalize a.neg (a.val % b.val)

/-! Compound assignments return the new value of their left operand. -/

def addAssign (a b : DiffmaxT) : DiffmaxT := add a b

def subAssign (a b : DiffmaxT) : DiffmaxT := sub a b

def mulAssign (a b : DiffmaxT) : DiffmaxT := mul a b

def divAssign (a b : DiffmaxT) : DiffmaxT := div a b

def modAssign (a b : DiffmaxT) : DiffmaxT := mod a b

/-- `a.neg_ = (a.neg_ ? --a.val_ : ++a.val_) && a.neg_`. -/
def preInc (a : DiffmaxT) : DiffmaxT :=
  let val := if a.neg then a.val - 1 else a.val + 1
  ⟨val != 0 && a.neg, val, ne_zero_of_flag⟩

/-- `a.neg_ = (a.neg_ ? ++a.val_ : --a.val_) && a.neg_`. -/
def preDec (a : DiffmaxT) : DiffmaxT :=
  let val := if a.neg then a.val + 1 else a.val - 1
  ⟨val != 0 && a.neg, val, ne_zero_of_flag⟩

/-- The postfix forms: the returned copy, then the object. -/
def postInc (a : DiffmaxT) : DiffmaxT × DiffmaxT := (a, preInc a)

def postDec (a : DiffmaxT) : DiffmaxT × DiffmaxT := (a, preDec a)

/-! ## The integer a pair stands for -/

def v (a : DiffmaxT) : Int := if a.neg then -(a.val.toNat : Int) else a.val.toNat

/-- An exact result the type can hold. -/
def Fits (n : Int) : Prop := n.natAbs < 2 ^ 64

instance (n : Int) : Decidable (Fits n) := inferInstanceAs (Decidable (n.natAbs < 2 ^ 64))

theorem toNat_pos_of_neg (a : DiffmaxT) (h : a.neg = true) : 0 < a.val.toNat := by
  have hne := a.check h
  rcases Nat.eq_zero_or_pos a.val.toNat with h0 | h0
  · exact absurd (BitVec.eq_of_toNat_eq (by simpa using h0)) hne
  · exact h0

theorem v_ofTag (neg : Bool) (val : Word64) :
    (ofTag neg val).v = if neg then -(val.toNat : Int) else val.toNat := by
  by_cases hz : val = 0#64
  · subst hz
    cases neg <;> rfl
  · cases neg <;> simp [v, ofTag, hz]

theorem v_normalize (neg : Bool) (val : Word64) :
    (normalize neg val).v = if neg then -(val.toNat : Int) else val.toNat := by
  rw [normalize, v_ofTag]
  by_cases hz : val = 0#64
  · subst hz
    cases neg <;> rfl
  · cases neg <;> simp [hz]

theorem v_natAbs (a : DiffmaxT) : a.v.natAbs = a.val.toNat := by
  unfold v
  split <;> omega

theorem v_eq_zero_iff (a : DiffmaxT) : a.v = 0 ↔ a.val.toNat = 0 := by
  rw [← v_natAbs]
  omega

theorem v_negate (a : DiffmaxT) : (negate a).v = -a.v := by
  rw [negate, v_normalize, v]
  cases a.neg <;> simp

theorem v_of_neg {a : DiffmaxT} (h : a.neg = true) : a.v = -(a.val.toNat : Int) := if_pos h

theorem v_of_not_neg {a : DiffmaxT} (h : a.neg = false) : a.v = a.val.toNat := by
  rw [v, h, if_neg Bool.false_ne_true]

/-- A sum of magnitudes that does not wrap. -/
theorem v_ofTag_add {neg : Bool} {x y : Word64} (h : x.toNat + y.toNat < 2 ^ 64) :
    (ofTag neg (x + y)).v =
      if neg then -((x.toNat : Int) + y.toNat) else (x.toNat : Int) + y.toNat := by
  rw [v_ofTag, BitVec.toNat_add, Nat.mod_eq_of_lt h, Int.natCast_add]

/-- A difference of magnitudes, taken the way round that does not wrap. -/
theorem v_ofTag_sub {neg : Bool} {x y : Word64} (h : y.toNat ≤ x.toNat) :
    (ofTag neg (x - y)).v =
      if neg then -((x.toNat : Int) - y.toNat) else (x.toNat : Int) - y.toNat := by
  rw [v_ofTag, BitVec.toNat_sub_of_le (BitVec.le_def.mpr h), Int.natCast_sub h]

/-- A difference of magnitudes, whichever is the larger. -/
theorem v_difference (x y : Word64) :
    (if x > y then ofTag true (x - y) else ofTag false (y - x)).v = (y.toNat : Int) - x.toNat := by
  by_cases hgt : x > y
  · have hlt := BitVec.lt_def.mp hgt
    rw [if_pos hgt, v_ofTag_sub (Nat.le_of_lt hlt), if_pos rfl, Int.neg_sub]
  · have hle := Nat.not_lt.mp (mt BitVec.lt_def.mpr hgt)
    rw [if_neg hgt, v_ofTag_sub hle, if_neg Bool.false_ne_true]

/-- Addition is exact: `Fits` bounds a sum of equal signs, and the signs decide the order of
a difference. -/
theorem v_add (a b : DiffmaxT) (h : Fits (a.v + b.v)) : (add a b).v = a.v + b.v := by
  unfold add
  unfold Fits at h
  cases ha : a.neg with
  | true =>
    rw [v_of_neg ha] at h ⊢
    cases hb : b.neg with
    | true =>
      rw [v_of_neg hb] at h ⊢
      rw [if_pos rfl, v_ofTag_add (by omega), if_pos rfl]
      omega
    | false =>
      rw [v_of_not_neg hb, if_neg (by simp), if_pos rfl, v_difference]
      omega
  | false =>
    rw [v_of_not_neg ha] at h ⊢
    cases hb : b.neg with
    | true =>
      rw [v_of_neg hb, if_neg (by simp), if_neg Bool.false_ne_true, v_difference]
      omega
    | false =>
      rw [v_of_not_neg hb] at h ⊢
      rw [if_pos rfl, v_ofTag_add (by omega), if_neg Bool.false_ne_true]

theorem v_sub (a b : DiffmaxT) (h : Fits (a.v - b.v)) : (sub a b).v = a.v - b.v := by
  rw [sub, v_add _ _ (by rwa [v_negate, ← Int.sub_eq_add_neg]), v_negate, Int.sub_eq_add_neg]

/-- Signs multiply as `^` on the flags. -/
theorem v_mul_sign (a b : DiffmaxT) (n : Nat) :
    (if a.neg ^^ b.neg then -(n : Int) else n) =
      (if a.neg then -1 else 1) * (if b.neg then -1 else 1) * (n : Int) := by
  cases a.neg <;> cases b.neg <;> simp

theorem v_eq_sign_mul (a : DiffmaxT) : a.v = (if a.neg then -1 else 1) * (a.val.toNat : Int) := by
  unfold v
  split <;> simp

theorem v_mul (a b : DiffmaxT) (h : Fits (a.v * b.v)) : (mul a b).v = a.v * b.v := by
  have hfit : a.val.toNat * b.val.toNat < 2 ^ 64 := by
    rwa [Fits, Int.natAbs_mul, v_natAbs, v_natAbs] at h
  rw [mul, v_normalize, BitVec.toNat_mul, Nat.mod_eq_of_lt hfit, v_mul_sign, v_eq_sign_mul a,
    v_eq_sign_mul b]
  push_cast
  ring

theorem v_div (a b : DiffmaxT) : (div a b).v = a.v.tdiv b.v := by
  rw [div, v_normalize, BitVec.toNat_udiv, v, v]
  cases a.neg <;> cases b.neg <;> simp

theorem v_mod (a b : DiffmaxT) : (mod a b).v = a.v.tmod b.v := by
  rw [mod, v_normalize, BitVec.toNat_umod, Int.ofNat_tmod, v, v]
  cases a.neg <;> cases b.neg <;> simp

theorem lt_iff (a b : DiffmaxT) : lt a b = true ↔ a.v < b.v := by
  have ha := a.toNat_pos_of_neg
  have hb := b.toNat_pos_of_neg
  unfold lt v
  cases han : a.neg <;> cases hbn : b.neg <;>
    simp only [han, hbn, Bool.false_eq_true, if_true, if_false, decide_eq_true_eq, BitVec.lt_def,
      gt_iff_lt, true_iff, false_iff, forall_const, false_implies] at * <;> omega

/-- Equality needs the invariant: with a negative zero the two flags could differ. -/
theorem eq_iff (a b : DiffmaxT) : eq a b = true ↔ a.v = b.v := by
  have ha := a.toNat_pos_of_neg
  have hb := b.toNat_pos_of_neg
  unfold eq v
  rw [Bool.and_eq_true, beq_iff_eq, beq_iff_eq, ← BitVec.toNat_inj]
  cases han : a.neg <;> cases hbn : b.neg <;>
    simp only [han, hbn, Bool.false_eq_true, if_true, if_false, reduceCtorEq, and_true, and_false,
      false_iff, forall_const, false_implies] at * <;> omega

theorem v_preInc (a : DiffmaxT) (h : Fits (a.v + 1)) : (preInc a).v = a.v + 1 := by
  have hlt := a.val.isLt
  cases hn : a.neg with
  | true =>
    have hpos := a.toNat_pos_of_neg hn
    have hval : (a.val - 1).toNat = a.val.toNat - 1 :=
      BitVec.toNat_sub_of_le (BitVec.le_def.mpr hpos)
    have he : preInc a = ofTag true (a.val - 1) := by simp [preInc, ofTag, hn]
    rw [he, v_ofTag, hval, v, hn]
    simp only [if_true]
    omega
  | false =>
    have hfit : a.val.toNat + 1 < 2 ^ 64 := by
      simp only [Fits, v, hn, Bool.false_eq_true, if_false] at h
      omega
    have hval : (a.val + 1).toNat = a.val.toNat + 1 := by
      rw [BitVec.toNat_add]
      exact Nat.mod_eq_of_lt hfit
    have he : preInc a = ofTag false (a.val + 1) := by simp [preInc, ofTag, hn]
    rw [he, v_ofTag, hval, v, hn]
    simp

theorem v_preDec (a : DiffmaxT) (hz : a.v ≠ 0) (h : Fits (a.v - 1)) : (preDec a).v = a.v - 1 := by
  have hlt := a.val.isLt
  cases hn : a.neg with
  | true =>
    have hfit : a.val.toNat + 1 < 2 ^ 64 := by
      simp only [Fits, v, hn, if_true] at h
      omega
    have hval : (a.val + 1).toNat = a.val.toNat + 1 := by
      rw [BitVec.toNat_add]
      exact Nat.mod_eq_of_lt hfit
    have he : preDec a = ofTag true (a.val + 1) := by simp [preDec, ofTag, hn]
    rw [he, v_ofTag, hval, v, hn]
    simp only [if_true]
    omega
  | false =>
    have hpos : 1 ≤ a.val.toNat := by
      rw [Ne, v_eq_zero_iff] at hz
      omega
    have hval : (a.val - 1).toNat = a.val.toNat - 1 :=
      BitVec.toNat_sub_of_le (BitVec.le_def.mpr hpos)
    have he : preDec a = ofTag false (a.val - 1) := by simp [preDec, ofTag, hn]
    rw [he, v_ofTag, hval, v, hn]
    simp only [Bool.false_eq_true, if_false]
    omega

/-- Decrementing zero wraps the magnitude and leaves the sign positive. -/
theorem v_preDec_zero (a : DiffmaxT) (hz : a.v = 0) : (preDec a).v = 2 ^ 64 - 1 := by
  have h0 : a.val = 0#64 := BitVec.eq_of_toNat_eq (by simpa using (v_eq_zero_iff a).mp hz)
  have hn : a.neg = false := by
    cases hn : a.neg with
    | false => rfl
    | true => exact absurd h0 (a.check hn)
  have he : preDec a = ofTag false (a.val - 1) := by simp [preDec, ofTag, hn]
  rw [he, v_ofTag, h0]
  rfl

/-! ## The integer laws -/

/-- Every value some operator of the family leaves behind for `x` and `y`. -/
def results (x y : DiffmaxT) : List DiffmaxT :=
  [plus x, negate x, add x y, sub x y, mul x y, div x y, mod x y, addAssign x y, subAssign x y,
    mulAssign x y, divAssign x y, modAssign x y, preInc x, preDec x, (postInc x).2, (postDec x).2]

/-- The type implements the integers at `x` and `y`, wherever the exact result fits. -/
structure IntegerLaws (x y : DiffmaxT) : Prop where
  plus : (plus x).v = x.v
  negate : (negate x).v = -x.v
  add : Fits (x.v + y.v) → (add x y).v = x.v + y.v ∧ (addAssign x y).v = x.v + y.v
  sub : Fits (x.v - y.v) → (sub x y).v = x.v - y.v ∧ (subAssign x y).v = x.v - y.v
  mul : Fits (x.v * y.v) → (mul x y).v = x.v * y.v ∧ (mulAssign x y).v = x.v * y.v
  div : y.v ≠ 0 → (div x y).v = x.v.tdiv y.v ∧ (divAssign x y).v = x.v.tdiv y.v
  mod : y.v ≠ 0 → (mod x y).v = x.v.tmod y.v ∧ (modAssign x y).v = x.v.tmod y.v
  lt : lt x y = true ↔ x.v < y.v
  gt : gt x y = true ↔ x.v > y.v
  le : le x y = true ↔ x.v ≤ y.v
  ge : ge x y = true ↔ x.v ≥ y.v
  eq : eq x y = true ↔ x.v = y.v
  ne : ne x y = true ↔ x.v ≠ y.v
  preInc : Fits (x.v + 1) → (preInc x).v = x.v + 1
  preDec : Fits (x.v - 1) → (preDec x).v = x.v - 1
  postInc : (postInc x).1 = x ∧ (Fits (x.v + 1) → (postInc x).2.v = x.v + 1)
  postDec : (postDec x).1 = x ∧ (Fits (x.v - 1) → (postDec x).2.v = x.v - 1)
  noNegativeZero : ∀ z ∈ results x y, z.neg = true → z.val ≠ 0

/-- The integers are implemented at every pair but those whose first component is
zero, and there only the decrements fail. -/
theorem integerLaws_iff (x y : DiffmaxT) : IntegerLaws x y ↔ x.v ≠ 0 := by
  constructor
  · intro laws hz
    have hdec := laws.preDec (by rw [hz]; decide)
    rw [v_preDec_zero x hz, hz] at hdec
    exact absurd hdec (by decide)
  · intro hx
    exact {
      plus := rfl
      negate := v_negate x
      add := fun h => ⟨v_add x y h, v_add x y h⟩
      sub := fun h => ⟨v_sub x y h, v_sub x y h⟩
      mul := fun h => ⟨v_mul x y h, v_mul x y h⟩
      div := fun _ => ⟨v_div x y, v_div x y⟩
      mod := fun _ => ⟨v_mod x y, v_mod x y⟩
      lt := lt_iff x y
      gt := lt_iff y x
      le := by
        have h := lt_iff y x
        rw [DiffmaxT.le, Bool.not_eq_true', ← Bool.not_eq_true, h, Int.not_lt]
      ge := by
        have h := lt_iff x y
        rw [DiffmaxT.ge, Bool.not_eq_true', ← Bool.not_eq_true, h, Int.not_lt]
      eq := eq_iff x y
      ne := by
        have h := eq_iff x y
        rw [DiffmaxT.ne, Bool.not_eq_true', ← Bool.not_eq_true, h]
      preInc := v_preInc x
      preDec := v_preDec x hx
      postInc := ⟨rfl, v_preInc x⟩
      postDec := ⟨rfl, v_preDec x hx⟩
      noNegativeZero := fun z _ => z.check }

/-- Zero itself, decremented. -/
theorem integerLaws_zero : ¬ IntegerLaws ⟨false, 0, by decide⟩ ⟨false, 0, by decide⟩ := by
  intro laws
  exact absurd (laws.preDec (by decide)) (by decide)

end DiffmaxT

end EARanges.Iterator
