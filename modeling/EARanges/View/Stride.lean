import EARanges.Iterator.DifferenceT
import EARanges.Iterator.RangeTraits
import EARanges.Support.InPlace
import EARanges.Support.Numbered
import EARanges.Support.Strides

/-!
# `stride_view`

view/stride.hpp. An iterator of the base is its index. The distance by which the last
step overshoots the end, `offset_`, is a member of the view and shared by its cursors,
so every operation takes it and returns it; -1 says that it is not known yet. Without
`--` on the base there is no such member: `get_offset` is 0 and `set_offset` does
nothing. The asserted debug form of stepping backwards in `advance` and the plain one
are told apart by `ndebug`.
-/
namespace EARanges.View
open EARanges.Support EARanges.Iterator

/-- The constructor expects `0 < stride`; distances in the base, whose end has the index
`length`, and the stride fit the difference type. A const view of a bidirectional base
exists for sized bases only. -/
structure StrideView (α : Type) extends Strides where
  base : List α
  base_length : base.length = length
  stride_le : (stride : Int) ≤ diffMax
  length_le : (length : Int) ≤ diffMax
  traits : RangeTraits
  lang : IfConstexpr
  isConst : Bool
  ndebug : Bool
  const_iterable : isConst = true → traits.bidirectional = true → traits.sized = true

namespace StrideView

variable {α : Type}

/-! `stride_view_base_` -/

def calcOffset (v : StrideView α) : Int :=
  if v.traits.sized then
    let rem := v.length % v.stride
    if rem ≠ 0 then v.stride - rem else 0
  else -1

/-- `set_offset`, which does nothing on a const view. -/
def setOffset (v : StrideView α) (offset delta : Int) : Exec Int :=
  if v.traits.bidirectional && !v.isConst then
    if ¬ (0 ≤ delta ∧ delta < v.stride) then .error .fault
    else if 0 > offset then .ok delta
    else if offset = delta then .ok offset
    else .error .fault
  else .ok offset

/-- `get_offset(true)`. -/
def getOffset (v : StrideView α) (offset : Int) : Exec Int :=
  if v.traits.bidirectional then
    if 0 ≤ offset then .ok offset else .error .fault
  else .ok 0

/-! `adaptor` -/

def next (v : StrideView α) (s : Int × Nat) : Exec (Int × Nat) :=
  let (offset, it) := s
  let last := v.length
  if it = last then .error .fault
  else do
    let (it, delta) ← advanceEnd v.lang v.traits v.length it v.stride
    if it = last then do
      let offset ← setOffset v offset delta
      .ok (offset, it)
    else .ok (offset, it)

/-- How far to step back: to the end of the last whole stride from the end. -/
def prevDelta (v : StrideView α) (offset : Int) (it : Nat) : Exec Int := do
  let delta ← signed (-v.stride)
  if it = v.length then do
    let o ← getOffset v offset
    signed (delta + o)
  else .ok delta

def prev (v : StrideView α) (s : Int × Nat) : Exec (Int × Nat) :=
  let (offset, it) := s
  if it = 0 then .error .fault
  else do
    let delta ← prevDelta v offset it
    let it ← advanceBy v.traits v.length it delta
    .ok (offset, it)

def distanceTo (v : StrideView α) (here there : Nat) : Exec Int := do
  let delta ← signed ((there : Int) - here)
  let delta ← if delta < 0 then signed (delta - (v.stride - 1))
    else signed (delta + (v.stride - 1))
  .ok (delta.tdiv v.stride)

/-- The number of base steps in `n` strides from `it`, less the overshoot at the end. -/
def advanceCount (v : StrideView α) (offset : Int) (it : Nat) (n : Int) : Exec Int := do
  let n ← signed (n * v.stride)
  if it = v.length then
    if ¬ n < 0 then .error .fault
    else do
      let o ← getOffset v offset
      signed (n + o)
  else .ok n

def advanceForward (v : StrideView α) (offset : Int) (it : Nat) (n : Int) :
    Exec (Int × Nat) := do
  let (it, delta) ← advanceEnd v.lang v.traits v.length it n
  if it = v.length then do
    let offset ← setOffset v offset (delta.tmod v.stride)
    .ok (offset, it)
  else .ok (offset, it)

def advanceBackward (v : StrideView α) (offset : Int) (it : Nat) (n : Int) : Exec (Int × Nat) :=
  if v.ndebug then do
    let it ← advanceBy v.traits v.length it n
    .ok (offset, it)
  else do
    let (it, delta) ← advanceTo v.lang v.traits v.length it n 0
    if delta = 0 then .ok (offset, it) else .error .fault

def advance (v : StrideView α) (n : Int) (s : Int × Nat) : Exec (Int × Nat) :=
  let (offset, it) := s
  if 0 = n then .ok (offset, it)
  else do
    let n ← advanceCount v offset it n
    if 0 < n then advanceForward v offset it n
    else if 0 > n then advanceBackward v offset it n
    else .ok (offset, it)

def size (v : StrideView α) : Nat :=
  unsigned (unsigned (v.length + v.stride) - 1) / v.stride

/-- `common_range` and an offset that is known from the start, or not needed. -/
def canBound (v : StrideView α) : Bool :=
  v.traits.common && (v.traits.sized || !v.traits.bidirectional)

/-- A loop over the view, whose offset is `offset` by then. -/
def loop (v : StrideView α) (offset : Int) : Loop (Int × Nat) α where
  start := .ok (offset, 0)
  atEnd s := .ok (s.2 == v.length)
  read s := deref v.base s.2
  next := next v

/-! ## Positions -/

/-- The elements at the indices `0`, `s`, `2 * s`, .... -/
def strided (s : Nat) (hs : 0 < s) (l : List α) : List α :=
  List.ofFn fun i : Fin (ceilDiv l.length s) =>
    l.get ⟨i * s, (lt_ceilDiv_iff hs).mp i.isLt⟩

theorem getElem?_strided {s : Nat} (hs : 0 < s) (l : List α) (i : Nat) :
    (strided s hs l)[i]? = l[i * s]? := by
  rw [strided, List.getElem?_ofFn]
  split
  next hi => exact (List.getElem?_eq_getElem ((lt_ceilDiv_iff hs).mp hi)).symm
  next hi => exact (List.getElem?_eq_none (Nat.le_of_not_lt (mt (lt_ceilDiv_iff hs).mpr hi))).symm

theorem strided_getElem? (v : StrideView α) {i : Nat} (hi : i < v.count) :
    (strided v.stride v.stride_pos v.base)[i]? = v.base[v.pos i]? := by
  rw [getElem?_strided, v.pos_of_lt hi]

theorem length_strided (v : StrideView α) :
    (strided v.stride v.stride_pos v.base).length = v.count := by
  rw [strided, List.length_ofFn, v.base_length]
  rfl

theorem size_eq (v : StrideView α) : size v = v.count := by
  have hl : (v.length : Int) ≤ diffMax := v.length_le
  have hs := v.stride_le
  have hpos := v.stride_pos
  unfold diffMax at hl hs
  have hsum : (v.length : Int) + v.stride = (v.length + v.stride : Nat) := by omega
  have hless : ((v.length + v.stride : Nat) : Int) - 1 = (v.length + v.stride - 1 : Nat) := by
    omega
  rw [size, hsum, unsigned_natCast (by omega), hless, unsigned_natCast (by omega)]
  rfl

/-! ## The remembered offset -/

theorem calcOffset_sized (v : StrideView α) (h : v.traits.sized = true) :
    calcOffset v = v.overshoot := by
  have hrem := Nat.mod_lt v.length v.stride_pos
  rw [v.overshoot_eq]
  simp only [calcOffset, h, if_true]
  split <;> omega

/-- Where there is an offset, it is the overshoot, or not known yet. -/
structure OffsetOk (v : StrideView α) (offset : Int) : Prop where
  sized : v.traits.bidirectional = true → v.traits.sized = true → offset = v.overshoot
  known : v.traits.bidirectional = true → offset = -1 ∨ offset = v.overshoot

theorem OffsetOk.calcOffset (v : StrideView α) : OffsetOk v (calcOffset v) := by
  refine ⟨fun _ hsized => v.calcOffset_sized hsized, fun _ => ?_⟩
  cases hsized : v.traits.sized with
  | true => exact .inr (v.calcOffset_sized hsized)
  | false => exact .inl (by simp only [StrideView.calcOffset, hsized, Bool.false_eq_true, if_false])

/-- The offset after a move from cursor `i` to cursor `j`. -/
def after (v : StrideView α) (offset : Int) (i j : Nat) : Int :=
  if v.traits.bidirectional && !v.isConst && decide (i < j) && decide (j = v.count) then
    v.overshoot
  else offset

theorem after_of_lt (v : StrideView α) (offset : Int) (i : Nat) {j : Nat} (hj : j < v.count) :
    v.after offset i j = offset := by
  simp [after, Nat.ne_of_lt hj]

theorem after_self (v : StrideView α) (offset : Int) {i j : Nat} (hji : j ≤ i) :
    v.after offset i j = offset := by
  simp [after, Nat.not_lt.mpr hji]

theorem OffsetOk.after {v : StrideView α} {offset : Int} (h : OffsetOk v offset) (i j : Nat) :
    OffsetOk v (v.after offset i j) := by
  unfold StrideView.after
  split
  · exact ⟨fun _ _ => rfl, fun _ => .inr rfl⟩
  · exact h

/-- Once known, the offset stays what it is. -/
theorem after_of_known (v : StrideView α) {offset : Int} (h : offset = v.overshoot) (i j : Nat) :
    v.after offset i j = v.overshoot := by
  unfold after
  split
  · rfl
  · exact h

/-- A cursor that has come to the end knows the offset. -/
theorem OffsetOk.after_end {v : StrideView α} {offset : Int} (h : OffsetOk v offset)
    (hbidi : v.traits.bidirectional = true) {i : Nat} (hi : i < v.count) :
    v.after offset i v.count = v.overshoot := by
  cases hconst : v.isConst with
  | false => simp [StrideView.after, hbidi, hconst, hi]
  | true => exact v.after_of_known (h.sized hbidi (v.const_iterable hconst hbidi)) _ _

theorem setOffset_eq {v : StrideView α} {offset : Int} (h : OffsetOk v offset) {i : Nat}
    (hi : i < v.count) : setOffset v offset v.overshoot = .ok (v.after offset i v.count) := by
  have hlt : (v.overshoot : Int) < v.stride := Int.ofNat_lt.mpr v.overshoot_lt
  unfold setOffset StrideView.after
  cases hcond : v.traits.bidirectional && !v.isConst with
  | false => simp
  | true =>
    rw [if_pos rfl, if_neg (by omega)]
    have hbidi := (Bool.and_eq_true_iff.mp hcond).1
    obtain hunknown | hknown := h.known hbidi
    · rw [if_pos (by omega)]
      simp [hi]
    · rw [if_neg (by omega), if_pos hknown]
      simp [hi, hknown]

/-! ## What the operations do -/

theorem next_eq {v : StrideView α} {offset : Int} (h : OffsetOk v offset) {i : Nat}
    (hi : i < v.count) :
    next v (offset, v.pos i) = .ok (v.after offset i (i + 1), v.pos (i + 1)) := by
  have hlt := v.pos_lt hi
  have hadd := v.pos_add (k := 1) hi
  rw [Nat.one_mul] at hadd
  simp only [next, if_neg (Nat.ne_of_lt hlt), advanceEnd_eq (v.pos_le i), exec_bind_ok, hadd]
  split
  next hend =>
    have hlast : i + 1 = v.count := (v.pos_eq_length_iff hi).mp hend
    have hdelta : v.stride - min v.stride (v.length - v.pos i) = v.overshoot := by
      have hmul : v.count * v.stride = i * v.stride + v.stride := by
        rw [← hlast, Nat.succ_mul]
      have := v.length_le_count
      rw [v.pos_of_lt hi] at hlt ⊢
      unfold Strides.overshoot
      omega
    rw [hdelta, setOffset_eq h hi, hlast]
    rfl
  next hne =>
    have hlt' : i + 1 < v.count :=
      Nat.lt_of_le_of_ne hi fun heq => hne (by rw [heq, v.pos_count])
    rw [v.after_of_lt offset i hlt']

theorem prev_eq {v : StrideView α} (hbidi : v.traits.bidirectional = true) {offset : Int} {i : Nat}
    (hi : i < v.count) (hknown : i + 1 = v.count → offset = v.overshoot) :
    prev v (offset, v.pos (i + 1)) = .ok (offset, v.pos i) := by
  have hs := v.stride_le
  have hpos := v.stride_pos
  have hlt := v.pos_lt hi
  have hadd := v.pos_add_overshoot (i := i + 1) hi
  have hstep : (i + 1) * v.stride = v.pos i + v.stride := by rw [v.pos_of_lt hi, Nat.succ_mul]
  have hover := v.overshoot_lt
  have hneg : signed (-v.stride) = .ok (-v.stride) := by
    apply signed_of_abs <;> omega
  have hne : v.pos (i + 1) ≠ 0 := by
    intro hzero
    split at hadd <;> omega
  have hdelta : ∃ delta, prevDelta v offset (v.pos (i + 1)) = .ok delta ∧
      (v.pos (i + 1) : Int) + delta = v.pos i := by
    unfold prevDelta
    rw [hneg, exec_bind_ok]
    split at hadd
    next hlast =>
      have hend : v.pos (i + 1) = v.length := (v.pos_eq_length_iff hi).mpr hlast
      have hget : getOffset v offset = .ok v.overshoot := by
        rw [getOffset, if_pos hbidi, hknown hlast, if_pos (Int.natCast_nonneg _)]
      refine ⟨-v.stride + v.overshoot, ?_, by omega⟩
      rw [if_pos hend, hget, exec_bind_ok]
      apply signed_of_abs <;> omega
    next hnot =>
      have hend : ¬ v.pos (i + 1) = v.length := fun h => hnot ((v.pos_eq_length_iff hi).mp h)
      exact ⟨-v.stride, if_neg hend, by omega⟩
  obtain ⟨delta, hrun, htarget⟩ := hdelta
  simp only [prev, if_neg hne, hrun, exec_bind_ok,
    advanceBy_eq v.traits (v.pos_le _) (v.pos_le i) htarget]

theorem stepMany_next {v : StrideView α} {offset : Int} (h : OffsetOk v offset) {i k : Nat}
    (hk : i + k ≤ v.count) :
    Traversal.stepMany (next v) k (offset, v.pos i) =
      .ok (v.after offset i (i + k), v.pos (i + k)) := by
  have hsteps : ∀ j < k, next v (v.after offset i (i + j), v.pos (i + j)) =
      .ok (v.after offset i (i + (j + 1)), v.pos (i + (j + 1))) := by
    intro j hj
    rw [v.after_of_lt offset i (by omega), next_eq h (by omega)]
    congr 2
    simp only [after]
    congr 4
    · simp only [decide_eq_decide]
      omega
  have hrun := Loop.stepMany_eq (fun j => (v.after offset i (i + j), v.pos (i + j))) hsteps
  rwa [Nat.add_zero, v.after_self offset (Nat.le_refl i)] at hrun

theorem stepMany_prev {v : StrideView α} (hbidi : v.traits.bidirectional = true) {offset : Int}
    {i k : Nat} (hi : i ≤ v.count) (hk : k ≤ i)
    (hknown : 0 < i → i = v.count → offset = v.overshoot) :
    Traversal.stepMany (prev v) k (offset, v.pos i) = .ok (offset, v.pos (i - k)) := by
  have hsteps : ∀ j < k, prev v (offset, v.pos (i - j)) = .ok (offset, v.pos (i - (j + 1))) := by
    intro j hj
    have hindex : i - j = i - (j + 1) + 1 := by omega
    rw [hindex]
    exact prev_eq hbidi (by omega) fun hlast => hknown (by omega) (by omega)
  exact Loop.stepMany_eq (fun j => (offset, v.pos (i - j))) hsteps

/-! ## Jumps and distances -/

/-- The product of a jump and the stride is representable. -/
def Representable (v : StrideView α) (n : Int) : Prop :=
  diffMin ≤ n * v.stride ∧ n * v.stride ≤ diffMax

theorem advance_forward_eq {v : StrideView α} {offset : Int} (h : OffsetOk v offset) {i k : Nat}
    (hk : 0 < k) (hik : i + k ≤ v.count) (hfit : Representable v k) :
    advance v k (offset, v.pos i) = .ok (v.after offset i (i + k), v.pos (i + k)) := by
  have hi : i < v.count := by omega
  have hlt := v.pos_lt hi
  have hcast : (k : Int) * v.stride = (k * v.stride : Nat) := (Int.natCast_mul _ _).symm
  have hpos : 0 < k * v.stride := Nat.mul_pos hk v.stride_pos
  have hcount : advanceCount v offset (v.pos i) k = .ok (k * v.stride : Nat) := by
    rw [advanceCount, signed_ok hfit.1 hfit.2, exec_bind_ok, if_neg (Nat.ne_of_lt hlt), hcast]
  have hforward : advanceForward v offset (v.pos i) (k * v.stride : Nat) =
      .ok (v.after offset i (i + k), v.pos (i + k)) := by
    simp only [advanceForward, advanceEnd_eq (v.pos_le i), exec_bind_ok, v.pos_add hi]
    split
    next hend =>
      have hlast : i + k = v.count := (v.pos_eq_length_iff hik).mp hend
      have hdelta : k * v.stride - min (k * v.stride) (v.length - v.pos i) = v.overshoot := by
        have hmul : v.count * v.stride = i * v.stride + k * v.stride := by
          rw [← hlast, Nat.add_mul]
        have := v.length_le_count
        rw [v.pos_of_lt hi] at hlt ⊢
        unfold Strides.overshoot
        omega
      have hmod : Int.tmod v.overshoot v.stride = v.overshoot := by
        rw [← Int.ofNat_tmod, Nat.mod_eq_of_lt v.overshoot_lt]
      rw [hdelta, hmod, setOffset_eq h hi, hlast]
      rfl
    next hne =>
      have hlt' : i + k < v.count :=
        Nat.lt_of_le_of_ne hik fun heq => hne (by rw [heq, v.pos_count])
      rw [v.after_of_lt offset i hlt']
  simp only [advance]
  rw [if_neg (by omega), hcount, exec_bind_ok, if_pos (by omega), hforward]

theorem advance_backward_eq {v : StrideView α} (hbidi : v.traits.bidirectional = true)
    {offset : Int} {i k : Nat} (hk : 0 < k) (hki : k ≤ i) (hi : i ≤ v.count)
    (hknown : i = v.count → offset = v.overshoot) (hfit : Representable v (-k)) :
    advance v (-k) (offset, v.pos i) = .ok (offset, v.pos (i - k)) := by
  have hlen : (v.length : Int) ≤ diffMax := v.length_le
  have htarget : v.pos (i - k) = (i - k) * v.stride := v.pos_of_lt (by omega)
  have hadd := v.pos_add_overshoot hi
  have hmul : i * v.stride = (i - k) * v.stride + k * v.stride := by
    rw [← Nat.add_mul, Nat.sub_add_cancel hki]
  have hpos : 0 < k * v.stride := Nat.mul_pos hk v.stride_pos
  have hover := v.overshoot_lt
  have hle : v.stride ≤ k * v.stride := Nat.le_mul_of_pos_left _ hk
  have hcast : -(k : Int) * v.stride = -(k * v.stride : Nat) := by
    rw [Int.neg_mul, Int.natCast_mul]
  have hcount : ∃ n, advanceCount v offset (v.pos i) (-k) = .ok n ∧ n < 0 ∧
      (v.pos i : Int) + n = v.pos (i - k) := by
    rw [advanceCount, signed_ok hfit.1 hfit.2, exec_bind_ok, hcast]
    split at hadd
    next hlast =>
      have hget : getOffset v offset = .ok v.overshoot := by
        rw [getOffset, if_pos hbidi, hknown hlast, if_pos (Int.natCast_nonneg _)]
      refine ⟨-(k * v.stride : Nat) + v.overshoot, ?_, by omega, by omega⟩
      rw [if_pos ((v.pos_eq_length_iff hi).mpr hlast), if_neg (by omega), hget, exec_bind_ok]
      have hend := v.pos_le i
      apply signed_of_abs <;> omega
    next hnot =>
      have hend : ¬ v.pos i = v.length := fun h => hnot ((v.pos_eq_length_iff hi).mp h)
      exact ⟨-(k * v.stride : Nat), if_neg hend, by omega, by omega⟩
  obtain ⟨n, hrun, hneg, hland⟩ := hcount
  have hback : advanceBackward v offset (v.pos i) n = .ok (offset, v.pos (i - k)) := by
    unfold advanceBackward
    split
    · rw [advanceBy_eq v.traits (v.pos_le i) (v.pos_le _) hland, exec_bind_ok]
    · have hback : n = -((v.pos i - v.pos (i - k) : Nat) : Int) := by omega
      have hstart : v.pos i - (v.pos i - v.pos (i - k)) = v.pos (i - k) := by omega
      rw [hback, advanceTo_begin_eq _ (v.pos_le i) (by omega), hstart, Nat.min_eq_left (by omega),
        Nat.sub_self]
      rfl
  simp only [advance]
  rw [if_neg (by omega), hrun, exec_bind_ok, if_neg (by omega), if_pos hneg, hback]

/-- A jump that succeeds had a representable count. -/
theorem representable_of_advance {v : StrideView α} {n : Int} {s s' : Int × Nat} (hn : n ≠ 0)
    (h : advance v n s = .ok s') : Representable v n := by
  simp only [advance] at h
  rw [if_neg (Ne.symm hn)] at h
  obtain ⟨n', hcount, _⟩ := exec_bind_eq_ok.mp h
  rw [advanceCount] at hcount
  obtain ⟨n'', hsigned, _⟩ := exec_bind_eq_ok.mp hcount
  unfold signed at hsigned
  split at hsigned
  next hfit => exact hfit
  next => cases hsigned

/-- Every distance in the base can be rounded up to a whole stride. -/
def RoundsUp (v : StrideView α) : Prop := (v.length : Int) + (v.stride - 1) ≤ diffMax

theorem roundedDiv_eq {v : StrideView α} (h : RoundsUp v) {d : Nat} (hd : d ≤ v.length) :
    (signed (d + (v.stride - 1)) >>= fun delta => .ok (delta.tdiv v.stride)) =
      (.ok (ceilDiv d v.stride : Int) : Exec Int) ∧
    (signed (-d - (v.stride - 1)) >>= fun delta => .ok (delta.tdiv v.stride)) =
      (.ok (-(ceilDiv d v.stride : Int)) : Exec Int) := by
  have hs := v.stride_pos
  have hneg : -(d : Int) - (v.stride - 1) = -(d + (v.stride - 1)) := by omega
  unfold RoundsUp at h
  constructor
  · rw [signed_of_abs (by omega) (by omega), exec_bind_ok]
    exact congrArg Except.ok (tdiv_ceilDiv hs d)
  · rw [signed_of_abs (by omega) (by omega), exec_bind_ok, hneg]
    exact congrArg Except.ok ((Int.neg_tdiv _ _).trans (congrArg Neg.neg (tdiv_ceilDiv hs d)))

theorem distanceTo_eq {v : StrideView α} (h : RoundsUp v) {i j : Nat} (hi : i ≤ v.count)
    (hj : j ≤ v.count) : distanceTo v (v.pos i) (v.pos j) = .ok ((j : Int) - i) := by
  have hlen : (v.length : Int) ≤ diffMax := v.length_le
  have hposi := v.pos_le i
  have hposj := v.pos_le j
  have hdelta : signed ((v.pos j : Int) - v.pos i) = .ok ((v.pos j : Int) - v.pos i) := by
    apply signed_of_abs <;> omega
  rw [distanceTo, hdelta, exec_bind_ok]
  by_cases hneg : (v.pos j : Int) - v.pos i < 0
  · have hji : j ≤ i := by
      by_contra hlt
      have := v.pos_mono (Nat.le_of_not_le hlt)
      omega
    have hd : (v.pos j : Int) - v.pos i = -((v.pos i - v.pos j : Nat) : Int) := by omega
    rw [if_pos hneg, hd, (roundedDiv_eq h (by omega)).2, v.ceilDiv_pos hji hi]
    congr 1
    omega
  · have hij : i ≤ j := by
      by_contra hlt
      have hmono := v.pos_mono (Nat.le_of_not_le hlt)
      have hcount := v.ceilDiv_pos (Nat.le_of_not_le hlt) hi
      rw [Nat.sub_eq_zero_of_le (by omega : v.pos i ≤ v.pos j), ceilDiv_zero] at hcount
      omega
    have hd : (v.pos j : Int) - v.pos i = ((v.pos j - v.pos i : Nat) : Int) := by omega
    rw [if_neg hneg, hd, (roundedDiv_eq h (by omega)).1, v.ceilDiv_pos hij hj]
    congr 1
    omega

/-! ## Reachable cursors -/

inductive StrideOp where
  | next | prev
  | advance (n : Int)
  deriving DecidableEq, Repr

/-- Jumps that stay inside the view. -/
def InRange (v : StrideView α) (it : Nat) (n : Int) : Prop :=
  0 ≤ (v.index it : Int) + n ∧ (v.index it : Int) + n ≤ v.count

/-- What may be asked of a cursor. -/
def Admissible (v : StrideView α) (it : Nat) : StrideOp → Prop
  | .next => it ≠ v.length
  | .prev => v.traits.bidirectional = true ∧ it ≠ 0
  | .advance n => v.traits.randomAccess = true ∧ v.InRange it n

def apply (v : StrideView α) (s : Int × Nat) : StrideOp → Exec (Int × Nat)
  | .next => next v s
  | .prev => prev v s
  | .advance n => advance v n s

/-- The cursors obtained so far over one view, and the offset they share. -/
inductive Reachable (v : StrideView α) : Int → List Nat → Prop
  | start : Reachable v (calcOffset v) []
  | begin {offset : Int} {cs : List Nat} : Reachable v offset cs → Reachable v offset (0 :: cs)
  | bound {offset : Int} {cs : List Nat} : canBound v = true → Reachable v offset cs →
      Reachable v offset (v.length :: cs)
  | step {offset offset' : Int} {cs : List Nat} {c c' : Nat} (op : StrideOp) :
      Reachable v offset cs → c ∈ cs → Admissible v c op →
      apply v (offset, c) op = .ok (offset', c') → Reachable v offset' (c' :: cs)

/-- Cursor number `i`: at the end the offset is known. -/
structure At (v : StrideView α) (offset : Int) (i c : Nat) : Prop where
  le : i ≤ v.count
  eq : c = v.pos i
  known : v.traits.bidirectional = true → 0 < i → i = v.count → offset = v.overshoot

theorem At.index_eq {v : StrideView α} {offset : Int} {i c : Nat} (h : At v offset i c) :
    v.index c = i := by
  rw [h.eq]
  exact v.index_pos h.le

theorem At.mono {v : StrideView α} {offset : Int} {i c : Nat} (h : At v offset i c) (a b : Nat) :
    At v (v.after offset a b) i c :=
  ⟨h.le, h.eq, fun hbidi hpos hlast => v.after_of_known (h.known hbidi hpos hlast) a b⟩

/-- Where a move from cursor `i` to cursor `j` leads. -/
theorem At.moved {v : StrideView α} {offset : Int} (hok : OffsetOk v offset) {i j c : Nat}
    (h : At v offset i c) (hj : j ≤ v.count) : At v (v.after offset i j) j (v.pos j) := by
  refine ⟨hj, rfl, fun hbidi hpos hlast => ?_⟩
  rcases Nat.lt_or_ge i v.count with hi | hi
  · rw [hlast]
    exact hok.after_end hbidi hi
  · have hi : i = v.count := Nat.le_antisymm h.le hi
    exact v.after_of_known (h.known hbidi (by omega) hi) i j

theorem At.next {v : StrideView α} {offset : Int} (hok : OffsetOk v offset) {i c : Nat}
    (h : At v offset i c) (hc : c ≠ v.length) :
    i < v.count ∧ next v (offset, c) = .ok (v.after offset i (i + 1), v.pos (i + 1)) := by
  have hi : i < v.count := by
    apply Nat.lt_of_le_of_ne h.le
    rintro rfl
    exact hc (h.eq.trans v.pos_count)
  exact ⟨hi, by rw [h.eq, next_eq hok hi]⟩

theorem At.prev {v : StrideView α} {offset : Int} (hbidi : v.traits.bidirectional = true)
    {i c : Nat} (h : At v offset i c) (hc : c ≠ 0) :
    0 < i ∧ prev v (offset, c) = .ok (offset, v.pos (i - 1)) := by
  have hi : 0 < i := by
    apply Nat.pos_of_ne_zero
    rintro rfl
    exact hc (h.eq.trans v.pos_zero)
  have hindex : i = i - 1 + 1 := (Nat.sub_add_cancel hi).symm
  have hle := h.le
  refine ⟨hi, ?_⟩
  rw [h.eq, hindex]
  exact prev_eq hbidi (by omega) fun hlast => h.known hbidi hi (by omega)

/-- A jump and as many single steps lead to the same place, and leave the same offset. -/
theorem At.advance {v : StrideView α} {offset : Int} (hok : OffsetOk v offset)
    (hbidi : v.traits.bidirectional = true) {i c : Nat} (h : At v offset i c) {n : Int} {j : Nat}
    (hj : j ≤ v.count) (hn : (i : Int) + n = j) (hfit : n = 0 ∨ Representable v n) :
    advance v n (offset, c) = .ok (v.after offset i j, v.pos j) := by
  have hle := h.le
  rcases Int.lt_trichotomy n 0 with hneg | hzero | hpos
  · obtain ⟨k, rfl⟩ : ∃ k : Nat, n = -k := ⟨(-n).toNat, by omega⟩
    have hjk : j = i - k := by omega
    rw [h.eq, v.after_self offset (by omega), hjk]
    exact advance_backward_eq hbidi (by omega) (by omega) hle
      (fun hlast => h.known hbidi (by omega) hlast) (hfit.resolve_left (by omega))
  · have hji : j = i := by omega
    rw [hji, v.after_self offset (Nat.le_refl i), h.eq, StrideView.advance, if_pos hzero.symm]
  · obtain ⟨k, rfl⟩ : ∃ k : Nat, n = k := ⟨n.toNat, by omega⟩
    have hjk : j = i + k := by omega
    rw [h.eq, hjk]
    exact advance_forward_eq hok (by omega) (by omega) (hfit.resolve_left (by omega))

theorem At.steps {v : StrideView α} {offset : Int} (hok : OffsetOk v offset)
    (hbidi : v.traits.bidirectional = true) {i c : Nat} (h : At v offset i c) {n : Int} {j : Nat}
    (hj : j ≤ v.count) (hn : (i : Int) + n = j) :
    Loop.steps (StrideView.next v) (StrideView.prev v) n (offset, c) =
      .ok (v.after offset i j, v.pos j) := by
  have hle := h.le
  rw [Loop.steps, h.eq]
  split
  · have hjk : j = i + n.toNat := by omega
    rw [stepMany_next hok (by omega), ← hjk]
  · have hjk : j = i - (-n).toNat := by omega
    rw [stepMany_prev hbidi hle (by omega) (h.known hbidi), ← hjk,
      v.after_self offset (by omega)]

/-- Whatever has been done, the offset is right and every cursor has a number. -/
theorem Reachable.valid {v : StrideView α} {offset : Int} {cs : List Nat}
    (h : Reachable v offset cs) : OffsetOk v offset ∧ ∀ c ∈ cs, ∃ i, At v offset i c := by
  induction h with
  | start => exact ⟨.calcOffset v, fun c hc => by cases hc⟩
  | begin _ ih =>
    refine ⟨ih.1, fun c hc => ?_⟩
    rcases List.mem_cons.mp hc with rfl | hc
    · exact ⟨0, Nat.zero_le _, v.pos_zero.symm, fun _ hpos _ => absurd hpos (Nat.lt_irrefl 0)⟩
    · exact ih.2 c hc
  | bound hbound _ ih =>
    refine ⟨ih.1, fun c hc => ?_⟩
    rcases List.mem_cons.mp hc with rfl | hc
    · refine ⟨v.count, Nat.le_refl _, v.pos_count.symm, fun hbidi _ _ => ih.1.sized hbidi ?_⟩
      simpa [canBound, hbidi] using And.right (Bool.and_eq_true_iff.mp hbound)
    · exact ih.2 c hc
  | @step o _ _ c _ op _ hmem hop hrun ih =>
    obtain ⟨hok, hall⟩ := ih
    obtain ⟨i, hi⟩ := hall _ hmem
    have hstep : ∃ j ≤ v.count, apply v (o, c) op = .ok (v.after o i j, v.pos j) := by
      have hle := hi.le
      cases op with
      | next =>
        obtain ⟨hlt, heq⟩ := hi.next hok hop
        exact ⟨i + 1, hlt, heq⟩
      | prev =>
        obtain ⟨hpos, heq⟩ := hi.prev hop.1 hop.2
        refine ⟨i - 1, by omega, heq.trans ?_⟩
        rw [v.after_self _ (Nat.sub_le i 1)]
      | advance n =>
        obtain ⟨hra, hlow, hhigh⟩ := hop
        rw [hi.index_eq] at hlow hhigh
        have hadv : advance v n (o, c) = .ok _ := hrun
        have hfit : n = 0 ∨ Representable v n :=
          or_iff_not_imp_left.mpr fun hn => representable_of_advance hn hadv
        exact ⟨((i : Int) + n).toNat, by omega,
          hi.advance hok (v.traits.bidirectional_of_randomAccess hra) (by omega) (by omega) hfit⟩
    obtain ⟨j, hj, heq⟩ := hstep
    cases hrun.symm.trans heq
    refine ⟨hok.after i j, fun c hc => ?_⟩
    rcases List.mem_cons.mp hc with rfl | hc
    · exact ⟨j, hi.moved hok hj⟩
    · obtain ⟨i', hi'⟩ := hall c hc
      exact ⟨i', hi'.mono i j⟩

/-! ## The stride law -/

/-- The view is the sequence of every `stride`-th element, whatever has been done with
it before. -/
structure StrideLaw (v : StrideView α) : Prop where
  forward : ∀ offset cs, Reachable v offset cs →
    (loop v offset).Delivers (strided v.stride v.stride_pos v.base)
  size_eq : size v = ceilDiv v.base.length v.stride
  distance_eq : v.traits.sizedSentinel = true →
    distanceTo v 0 v.length = .ok (ceilDiv v.base.length v.stride)
  prev_next : v.traits.bidirectional = true → ∀ offset cs, Reachable v offset cs → ∀ c ∈ cs,
    c ≠ v.length → ∃ offset' c', next v (offset, c) = .ok (offset', c') ∧
      prev v (offset', c') = .ok (offset', c)
  next_prev : v.traits.bidirectional = true → ∀ offset cs, Reachable v offset cs → ∀ c ∈ cs,
    c ≠ 0 → ∃ c' offset', prev v (offset, c) = .ok (offset, c') ∧
      next v (offset, c') = .ok (offset', c)
  jump : v.traits.randomAccess = true → ∀ offset cs, Reachable v offset cs → ∀ c ∈ cs,
    ∀ n, v.InRange c n → ∃ offset' c', advance v n (offset, c) = .ok (offset', c') ∧
      Loop.steps (next v) (prev v) n (offset, c) = .ok (offset', c') ∧
      distanceTo v c c' = .ok n

theorem loop_numbers {v : StrideView α} {offset : Int} (hok : OffsetOk v offset) :
    (loop v offset).Numbers (strided v.stride v.stride_pos v.base)
      fun i s => OffsetOk v s.1 ∧ At v s.1 i s.2 := by
  refine ⟨⟨?_, ?_⟩, ?_, ?_⟩
  · exact ⟨(offset, 0), rfl, hok, Nat.zero_le _, v.pos_zero.symm,
      fun _ hpos _ => absurd hpos (Nat.lt_irrefl 0)⟩
  · rintro i ⟨o, c⟩ ⟨ho, h⟩ hi
    have heq : c = v.pos i := h.eq
    rw [length_strided] at hi
    rw [heq]
    exact ⟨_, next_eq ho hi, ho.after i (i + 1), h.moved ho hi⟩
  · rintro i ⟨o, c⟩ ⟨_, h⟩
    have heq : c = v.pos i := h.eq
    rw [length_strided, heq]
    apply congrArg Except.ok
    rw [Bool.eq_iff_iff, beq_iff_eq, decide_eq_true_eq]
    exact v.pos_eq_length_iff h.le
  · rintro i ⟨o, c⟩ x ⟨_, h⟩ hx
    have heq : c = v.pos i := h.eq
    have hi : i < v.count := by
      rw [← length_strided]
      exact (List.getElem?_eq_some_iff.mp hx).1
    rw [v.strided_getElem? hi] at hx
    simp only [loop, heq, deref, hx]

theorem RoundsUp.representable {v : StrideView α} (h : RoundsUp v) {n : Int}
    (hn : n.natAbs ≤ v.count) : Representable v n := by
  have hlt := v.count_mul_lt
  have hmul := Nat.mul_le_mul_right v.stride hn
  have habs : (n * v.stride).natAbs = n.natAbs * v.stride := by
    rw [Int.natAbs_mul, Int.natAbs_natCast]
  unfold RoundsUp at h
  unfold Representable diffMin diffMax at *
  omega

/-- Where distances are computed the law needs room for the rounding. -/
theorem RoundsUp.of_distance {v : StrideView α} {n : Int}
    (h : distanceTo v 0 v.length = .ok n) : RoundsUp v := by
  have hlen : (v.length : Int) ≤ diffMax := v.length_le
  by_contra hno
  unfold RoundsUp at hno
  have hdelta : signed ((v.length : Int) - (0 : Nat)) = .ok v.length := by
    rw [Int.natCast_zero, Int.sub_zero]
    exact signed_of_abs (by omega) hlen
  rw [distanceTo, hdelta, exec_bind_ok, if_neg (by omega),
    signed_fault (Int.not_le.mp hno)] at h
  cases h

theorem At.prev_next {v : StrideView α} {offset : Int} {i c : Nat} (hok : OffsetOk v offset)
    (hi : At v offset i c) (hbidi : v.traits.bidirectional = true) (hne : c ≠ v.length) :
    ∃ offset' c', StrideView.next v (offset, c) = .ok (offset', c') ∧
      StrideView.prev v (offset', c') = .ok (offset', c) := by
  obtain ⟨hlt, hnext⟩ := hi.next hok hne
  refine ⟨_, _, hnext, ?_⟩
  rw [hi.eq]
  exact prev_eq hbidi hlt ((hi.moved hok hlt).known hbidi (Nat.succ_pos i))

theorem At.next_prev {v : StrideView α} {offset : Int} {i c : Nat} (hok : OffsetOk v offset)
    (hi : At v offset i c) (hbidi : v.traits.bidirectional = true) (hne : c ≠ 0) :
    ∃ c' offset', StrideView.prev v (offset, c) = .ok (offset, c') ∧
      StrideView.next v (offset, c') = .ok (offset', c) := by
  obtain ⟨hpos, hprev⟩ := hi.prev hbidi hne
  have hle := hi.le
  have hindex : i - 1 + 1 = i := Nat.sub_add_cancel hpos
  have hnext := next_eq hok (i := i - 1) (by omega)
  rw [hindex, ← hi.eq] at hnext
  exact ⟨_, _, hprev, hnext⟩

theorem At.jump {v : StrideView α} {offset : Int} {i c : Nat} (hok : OffsetOk v offset)
    (hi : At v offset i c) (hround : RoundsUp v) (hra : v.traits.randomAccess = true) {n : Int}
    (hn : v.InRange c n) :
    ∃ offset' c', StrideView.advance v n (offset, c) = .ok (offset', c') ∧
      Loop.steps (StrideView.next v) (StrideView.prev v) n (offset, c) = .ok (offset', c') ∧
      distanceTo v c c' = .ok n := by
  have hbidi := v.traits.bidirectional_of_randomAccess hra
  have hle := hi.le
  obtain ⟨hlow, hhigh⟩ := hn
  rw [hi.index_eq] at hlow hhigh
  have hj : ((i : Int) + n).toNat ≤ v.count := by omega
  have htarget : (i : Int) + n = ((i : Int) + n).toNat := by omega
  have hfit := hround.representable (n := n) (by omega)
  refine ⟨_, _, hi.advance hok hbidi hj htarget (.inr hfit), hi.steps hok hbidi hj htarget, ?_⟩
  rw [hi.eq, distanceTo_eq hround hle hj]
  congr 1
  omega

/-- The jump from the begin to the end measures the whole base. -/
theorem StrideLaw.roundsUp_of_jump {v : StrideView α} (law : StrideLaw v)
    (hra : v.traits.randomAccess = true) : RoundsUp v := by
  have hreach : Reachable v (calcOffset v) [0] := .begin .start
  obtain ⟨i, hi⟩ := hreach.valid.2 0 (List.mem_singleton.mpr rfl)
  have hzero : v.index 0 = 0 := ceilDiv_zero v.stride
  have hi0 : i = 0 := hi.index_eq.symm.trans hzero
  subst hi0
  have hrange : v.InRange 0 v.count := by
    rw [InRange, hzero]
    omega
  obtain ⟨o, c, _, hsteps, hdist⟩ := law.jump hra _ _ hreach 0 (List.mem_singleton.mpr rfl) _
    hrange
  have hbidi := v.traits.bidirectional_of_randomAccess hra
  have hend := hi.steps hreach.valid.1 hbidi (n := v.count) (Nat.le_refl _) (by omega)
  rw [v.pos_count] at hend
  cases hsteps.symm.trans hend
  exact .of_distance hdist

/-- Whatever the base can do, the view presents its elements. Distances, and the jumps
they measure, need room to round the distance in the base up to a whole stride. -/
theorem strideView_law_iff (v : StrideView α) : StrideLaw v ↔
    (v.traits.sizedSentinel = true ∨ v.traits.randomAccess = true → RoundsUp v) := by
  constructor
  · rintro law (hsized | hra)
    · exact .of_distance (law.distance_eq hsized)
    · exact law.roundsUp_of_jump hra
  · intro hround
    have hcount : ceilDiv v.base.length v.stride = v.count := by
      rw [v.base_length]
      rfl
    constructor
    · exact fun offset cs h => (loop_numbers h.valid.1).delivers
    · exact v.size_eq.trans hcount.symm
    · intro hsized
      have hdist := distanceTo_eq (hround (.inl hsized)) (Nat.zero_le _) (Nat.le_refl v.count)
      have hzero : v.pos 0 = 0 := v.pos_zero
      rw [hzero, v.pos_count] at hdist
      rw [hdist, hcount, Int.natCast_zero, Int.sub_zero]
    · intro hbidi offset cs h c hc hne
      obtain ⟨hok, hall⟩ := h.valid
      obtain ⟨i, hi⟩ := hall c hc
      exact hi.prev_next hok hbidi hne
    · intro hbidi offset cs h c hc hne
      obtain ⟨hok, hall⟩ := h.valid
      obtain ⟨i, hi⟩ := hall c hc
      exact hi.next_prev hok hbidi hne
    · intro hra offset cs h c hc n hn
      obtain ⟨hok, hall⟩ := h.valid
      obtain ⟨i, hi⟩ := hall c hc
      exact hi.jump hok (hround (.inr hra)) hra hn

/-- Two elements in an array, to be visited in the largest stride there is. -/
def hugeStride : StrideView Nat where
  length := 2
  stride := 0x7fffffffffffffff
  stride_pos := Nat.succ_pos _
  base := [1, 2]
  base_length := rfl
  stride_le := by decide
  length_le := by decide
  traits := .ofArray
  lang := .cxx17
  isConst := false
  ndebug := true
  const_iterable := by decide

/-- The only element is visited, but the distance from the begin to the end overflows. -/
theorem hugeStride_overflows : size hugeStride = 1 ∧
    distanceTo hugeStride 0 hugeStride.length = .error .fault ∧ ¬ StrideLaw hugeStride := by
  refine ⟨by decide, by decide, fun law => ?_⟩
  have hdist := law.distance_eq rfl
  cases hdist

end StrideView

end EARanges.View
