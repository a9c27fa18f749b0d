import EARanges.Iterator.DifferenceType
import EARanges.Support.Numbered

/-!
# `closed_iota_view`

view/iota.hpp. The position behind the last value is the last value with the flag `done_` set,
so that no value beyond `to_` is ever formed.
-/
namespace EARanges.View
open EARanges.Support EARanges.Iterator

section
variable {t : IntType} (D : DifferenceType)

/-- `iota_advance_`; an unsigned value is moved by the absolute value of the distance. -/
def iotaAdvance (i : t.Value) (n : D.Carrier) : Exec t.Value :=
  if t.signed then D.plusAssign t i n
  else if !D.lt n (D.ofBool false) then do
    let n ← D.toIntegral t n
    t.plusAssign i n.1
  else do
    let n ← D.neg n
    let n ← D.toIntegral t n
    t.plusAssign i (-n.1)

/-- `iota_distance_`; unsigned values are subtracted the way round that does not wrap. -/
def iotaDistance (i₀ i₁ : t.Value) : Exec D.Carrier :=
  if t.signed then do
    let x₁ ← D.ofIntegral t i₁
    let x₀ ← D.ofIntegral t i₀
    D.sub x₁ x₀
  else if i₀.1 > i₁.1 then do
    let difference ← t.promoted.result (i₀.1 - i₁.1)
    let x ← D.ofIntegral t.promoted difference
    D.neg x
  else do
    let difference ← t.promoted.result (i₁.1 - i₀.1)
    D.ofIntegral t.promoted difference

variable {D} {convertible : t.Value → Prop} {bound : Nat}

/-- The difference of two unsigned values, the larger first. -/
theorem exists_difference {i j : t.Value} (ht : t.signed = false) (h : i.1 ≤ j.1) :
    ∃ k : t.Value, k.1 = j.1 - i.1 := by
  have hmin := IntType.min_of_unsigned ht
  have hi := i.2
  have hj := j.2
  exact ⟨⟨j.1 - i.1, by omega, by omega⟩, rfl⟩

theorem iotaAdvance_ok (hexact : D.Exact t convertible bound) {i j : t.Value} {n : D.Carrier}
    (hi : t.signed = true → convertible i) (hj : t.signed = true → convertible j)
    (hn : D.value n = j.1 - i.1) : iotaAdvance D i n = .ok j := by
  unfold iotaAdvance
  cases ht : t.signed with
  | true => exact hexact.plusAssign ht n i j (hi ht) (hj ht) hn
  | false =>
    have hzero := hexact.ofBool false
    have hlt := hexact.lt n (D.ofBool false)
    rw [hzero, if_neg Bool.false_ne_true] at hlt
    rw [if_neg Bool.false_ne_true]
    by_cases hneg : D.value n < 0
    · obtain ⟨k, hk⟩ := exists_difference ht (i := j) (j := i) (by omega)
      have hspan := hexact.span
      have hbounds := And.intro i.2 j.2
      obtain ⟨m, hm, hvalue⟩ := hexact.neg n (by omega)
      have hback := hexact.toIntegral ht m k (by omega)
      rw [hlt.mpr hneg]
      simp only [Bool.not_true, Bool.false_eq_true, if_false, hm, exec_bind_ok, hback]
      exact IntType.plusAssign_ok (by omega)
    · obtain ⟨k, hk⟩ := exists_difference ht (i := i) (j := j) (by omega)
      have hback := hexact.toIntegral ht n k (by omega)
      rw [Bool.eq_false_iff.mpr (mt hlt.mp hneg)]
      simp only [Bool.not_false, if_true, hback, exec_bind_ok]
      exact IntType.plusAssign_ok (by omega)

theorem iotaDistance_ok (hexact : D.Exact t convertible bound) {i j : t.Value}
    (hi : t.signed = true → convertible i) (hj : t.signed = true → convertible j) :
    ∃ n, iotaDistance D i j = .ok n ∧ D.value n = j.1 - i.1 := by
  have hspan := hexact.span
  have hbounds := And.intro i.2 j.2
  unfold iotaDistance
  cases ht : t.signed with
  | true =>
    obtain ⟨x₁, hx₁, hv₁⟩ := hexact.ofIntegral ht j (hj ht)
    obtain ⟨x₀, hx₀, hv₀⟩ := hexact.ofIntegral ht i (hi ht)
    obtain ⟨n, hn, hv⟩ := hexact.sub x₁ x₀ (by omega)
    refine ⟨n, ?_, by omega⟩
    simp only [if_true, hx₁, hx₀, exec_bind_ok, hn]
  | false =>
    rw [if_neg Bool.false_ne_true]
    by_cases hlt : i.1 > j.1
    · obtain ⟨k, hk⟩ := exists_difference ht (i := j) (j := i) (by omega)
      have hresult := IntType.result_ok (IntType.value_promoted k)
      obtain ⟨x, hx, hv⟩ := hexact.ofDifference ht ⟨k.1, IntType.value_promoted k⟩
        (IntType.nonneg_of_unsigned (x := k) ht) k.2.2
      obtain ⟨n, hn, hvn⟩ := hexact.neg x (by simp only at hv; omega)
      refine ⟨n, ?_, by simp only at hv; omega⟩
      rw [if_pos hlt, ← hk, hresult, exec_bind_ok, hx, exec_bind_ok, hn]
    · obtain ⟨k, hk⟩ := exists_difference ht (i := i) (j := j) (by omega)
      have hresult := IntType.result_ok (IntType.value_promoted k)
      obtain ⟨x, hx, hv⟩ := hexact.ofDifference ht ⟨k.1, IntType.value_promoted k⟩
        (IntType.nonneg_of_unsigned (x := k) ht) k.2.2
      refine ⟨x, ?_, by simp only at hv; omega⟩
      rw [if_neg hlt, ← hk, hresult, exec_bind_ok, hx]

end

structure ClosedIotaView (t : IntType) where
  from_ : t.Value
  to_ : t.Value
  bounds : from_.1 ≤ to_.1

namespace ClosedIotaView

structure Cursor (t : IntType) where
  from_ : t.Value
  to_ : t.Value
  done_ : Bool
  deriving DecidableEq

section
variable {t : IntType}

def beginCursor (v : ClosedIotaView t) : Cursor t := ⟨v.from_, v.to_, false⟩

def endCursor (v : ClosedIotaView t) : Cursor t := ⟨v.to_, v.to_, true⟩

namespace Cursor

def read (c : Cursor t) : Exec t.Value := if c.done_ then .error .fault else .ok c.from_

def next (c : Cursor t) : Exec (Cursor t) :=
  if c.done_ then .error .fault
  else if c.from_ = c.to_ then .ok { c with done_ := true }
  else do
    let i ← t.plusAssign c.from_ 1
    .ok { c with from_ := i }

def equal (c that : Cursor t) : Bool := that.from_ == c.from_ && that.done_ == c.done_

def prev (c : Cursor t) : Exec (Cursor t) :=
  if c.done_ then .ok { c with done_ := false }
  else do
    let i ← t.plusAssign c.from_ (-1)
    .ok { c with from_ := i }

variable (D : DifferenceType)

def advance (n : D.Carrier) (c : Cursor t) : Exec (Cursor t) :=
  if D.lt (D.ofBool false) n then do
    let distance ← iotaDistance D c.from_ c.to_
    let steps ← D.sub n (D.ofBool (!c.done_))
    if D.lt distance steps then .error .fault
    else
      let distance ← iotaDistance D c.from_ c.to_
      let steps ← D.sub n (D.ofBool (!c.done_))
      let done := !D.lt steps distance
      let n ← D.sub n (D.ofBool done)
      let i ← iotaAdvance D c.from_ n
      .ok { c with from_ := i, done_ := done }
  else if D.lt n (D.ofBool false) then do
    let n ← D.add n (D.ofBool c.done_)
    let i ← iotaAdvance D c.from_ n
    .ok { c with from_ := i, done_ := false }
  else .ok c

def distanceTo (c that : Cursor t) : Exec D.Carrier := do
  let distance ← iotaDistance D c.from_ that.from_
  let flags ← D.sub (D.ofBool that.done_) (D.ofBool c.done_)
  D.add distance flags

end Cursor

/-- The view as a loop, its elements read as integers. -/
def loop (v : ClosedIotaView t) : Loop (Cursor t) Int where
  start := .ok v.beginCursor
  atEnd c := .ok (c.equal v.endCursor)
  read c := do
    let i ← c.read
    .ok i.1
  next := Cursor.next

/-- `from`, `from + 1`, …, `to`. -/
def count (v : ClosedIotaView t) : Nat := (v.to_.1 - v.from_.1).toNat + 1

def values (v : ClosedIotaView t) : List Int :=
  (List.range v.count).map fun i : Nat => v.from_.1 + (i : Int)

/-- The cursor `i` steps from the first. -/
def At (v : ClosedIotaView t) (i : Nat) (c : Cursor t) : Prop :=
  c.to_ = v.to_ ∧
    (c.done_ = false ∧ c.from_.1 = v.from_.1 + i ∧ i < v.count ∨
      c.done_ = true ∧ c.from_ = v.to_ ∧ i = v.count)

theorem count_pred (v : ClosedIotaView t) : (v.count : Int) - 1 = v.to_.1 - v.from_.1 := by
  have hbounds := v.bounds
  unfold count
  omega

theorem At.unique {v : ClosedIotaView t} {i : Nat} {c c' : Cursor t} (h : v.At i c)
    (h' : v.At i c') : c = c' := by
  obtain ⟨from_, to_, done_⟩ := c
  obtain ⟨from_', to_', done_'⟩ := c'
  obtain ⟨rfl, ⟨rfl, hvalue, hlt⟩ | ⟨rfl, rfl, hend⟩⟩ := h <;>
    obtain ⟨rfl, ⟨rfl, hvalue', hlt'⟩ | ⟨rfl, rfl, hend'⟩⟩ := h'
  · have heq : from_ = from_' := Subtype.ext (hvalue.trans hvalue'.symm)
    rw [heq]
  · omega
  · omega
  · rfl

theorem length_values (v : ClosedIotaView t) : v.values.length = v.count := by
  rw [values, List.length_map, List.length_range]

theorem next_ok (v : ClosedIotaView t) {i : Nat} {c : Cursor t} (hat : v.At i c)
    (hi : i < v.count) : ∃ c', c.next = .ok c' ∧ v.At (i + 1) c' := by
  have hcount := v.count_pred
  obtain ⟨from_, to_, done_⟩ := c
  obtain ⟨rfl, ⟨rfl, hvalue, _⟩ | ⟨rfl, rfl, hend⟩⟩ := hat
  · by_cases hlast : from_ = v.to_
    · refine ⟨⟨from_, v.to_, true⟩, ?_, rfl, .inr ⟨rfl, hlast, ?_⟩⟩
      · simp [Cursor.next, hlast]
      · have hto : from_.1 = v.to_.1 := congrArg Subtype.val hlast
        simp only at hvalue
        omega
    · have hne : from_.1 ≠ v.to_.1 := fun h => hlast (Subtype.ext h)
      simp only at hvalue
      have hbounds := And.intro from_.2 v.to_.2
      let j : t.Value := ⟨from_.1 + 1, by omega, by omega⟩
      refine ⟨⟨j, v.to_, false⟩, ?_, rfl, .inl ⟨rfl, ?_, ?_⟩⟩
      · have hrun : t.plusAssign from_ 1 = .ok j := IntType.plusAssign_ok rfl
        simp [Cursor.next, hlast, hrun]
      · show from_.1 + 1 = _
        omega
      · omega
  · omega

theorem prev_ok (v : ClosedIotaView t) {i : Nat} {c : Cursor t} (hat : v.At (i + 1) c) :
    ∃ c', c.prev = .ok c' ∧ v.At i c' := by
  have hcount := v.count_pred
  obtain ⟨from_, to_, done_⟩ := c
  obtain ⟨rfl, ⟨rfl, hvalue, hlt⟩ | ⟨rfl, rfl, hend⟩⟩ := hat
  · simp only at hvalue
    have hbounds := And.intro from_.2 v.from_.2
    let j : t.Value := ⟨from_.1 - 1, by omega, by omega⟩
    refine ⟨⟨j, v.to_, false⟩, ?_, rfl, .inl ⟨rfl, ?_, by omega⟩⟩
    · have hrun : t.plusAssign from_ (-1) = .ok j := IntType.plusAssign_ok rfl
      simp [Cursor.prev, hrun]
    · show from_.1 - 1 = _
      omega
  · exact ⟨⟨v.to_, v.to_, false⟩, rfl, rfl, .inl ⟨rfl, by simp only; omega, by omega⟩⟩

theorem numbers (v : ClosedIotaView t) : Loop.Numbers v.loop v.values v.At where
  start := ⟨v.beginCursor, rfl, rfl, .inl ⟨rfl, by simp [beginCursor], Nat.succ_pos _⟩⟩
  next i c hat hi := v.next_ok hat (v.length_values ▸ hi)
  atEnd i c hat := by
    have hcount := v.count_pred
    rw [v.length_values]
    obtain ⟨_, ⟨hdone, _, hlt⟩ | ⟨hdone, hfrom, hend⟩⟩ := hat
    · have hnot : c.equal v.endCursor = false := by simp [Cursor.equal, endCursor, hdone]
      rw [decide_eq_false (Nat.ne_of_lt hlt), ← hnot]
      rfl
    · have heq : c.equal v.endCursor = true := by simp [Cursor.equal, endCursor, hdone, hfrom]
      rw [decide_eq_true hend, ← heq]
      rfl
  read i c x hat hx := by
    have hi : i < v.count := by
      have hlt := (List.getElem?_eq_some_iff.mp hx).1
      rwa [v.length_values] at hlt
    obtain ⟨_, ⟨hdone, hvalue, _⟩ | ⟨_, _, hend⟩⟩ := hat
    · rw [values, List.getElem?_map, List.getElem?_range hi] at hx
      have hread : c.read = .ok c.from_ := if_neg (by simp [hdone])
      show (c.read >>= fun i => Except.ok i.1) = _
      rw [hread, exec_bind_ok, hvalue]
      exact congrArg Except.ok (Option.some.inj hx)
    · omega

section
variable {D : DifferenceType} {convertible : t.Value → Prop} {bound : Nat}

theorem At.value {v : ClosedIotaView t} {i : Nat} {c : Cursor t} (h : v.At i c) :
    v.from_.1 ≤ c.from_.1 ∧ c.from_.1 ≤ v.to_.1 ∧
      c.from_.1 + (if c.done_ then 1 else 0) = v.from_.1 + i := by
  have hcount := v.count_pred
  obtain ⟨_, ⟨hdone, hvalue, hlt⟩ | ⟨hdone, hfrom, hend⟩⟩ := h
  · rw [hdone, if_neg Bool.false_ne_true]
    omega
  · have hbounds := v.bounds
    rw [hdone, if_pos rfl, hfrom]
    omega

theorem exists_at (v : ClosedIotaView t) {j : Nat} (hj : j ≤ v.count) :
    ∃ x, v.At j ⟨x, v.to_, decide (j = v.count)⟩ := by
  have hcount := v.count_pred
  have hbounds := And.intro v.from_.2 v.to_.2
  by_cases hlast : j = v.count
  · exact ⟨v.to_, rfl, .inr ⟨decide_eq_true hlast, rfl, hlast⟩⟩
  · have hlt : j < v.count := Nat.lt_of_le_of_ne hj hlast
    exact ⟨⟨v.from_.1 + j, by omega, by omega⟩, rfl, .inl ⟨decide_eq_false hlast, rfl, hlt⟩⟩

theorem lt_iff (hexact : D.Exact t convertible bound) (n : D.Carrier) :
    (D.lt (D.ofBool false) n = true ↔ 0 < D.value n) ∧
      (D.lt n (D.ofBool false) = true ↔ D.value n < 0) := by
  have hzero := hexact.ofBool false
  rw [if_neg Bool.false_ne_true] at hzero
  rw [hexact.lt, hexact.lt, hzero]
  exact ⟨Iff.rfl, Iff.rfl⟩

/-- Forward, from a cursor that is not at the end. -/
theorem advance_forward (hexact : D.Exact t convertible bound) {v : ClosedIotaView t}
    (hconv : t.signed = true → ∀ i : t.Value, v.from_.1 ≤ i.1 → convertible i)
    {i j : Nat} {n : D.Carrier} {c : Cursor t} (hat : v.At i c) (hj : j ≤ v.count) (hij : i < j)
    (hn : D.value n = (j : Int) - i) : ∃ c', c.advance D n = .ok c' ∧ v.At j c' := by
  have hcount := v.count_pred
  have hspan := hexact.span
  have hbounds := And.intro v.from_.2 v.to_.2
  have htrue := hexact.ofBool true
  rw [if_pos rfl] at htrue
  obtain ⟨hto, ⟨hdone, hvalue, hlt⟩ | ⟨_, _, hend⟩⟩ := hat
  · have hfrom : t.signed = true → convertible c.from_ := fun ht => hconv ht c.from_ (by omega)
    obtain ⟨distance, hdistance, hvd⟩ :=
      iotaDistance_ok hexact hfrom fun ht => hconv ht c.to_ (hto ▸ v.bounds)
    obtain ⟨steps, hsteps, hvs⟩ := hexact.sub n (D.ofBool true) (by omega)
    rw [hto] at hvd
    -- the bounds check passes, and `done_` is set for the end alone
    have hcheck : D.lt distance steps = false :=
      Bool.eq_false_iff.mpr (mt (hexact.lt distance steps).mp (by omega))
    have hflag : (!D.lt steps distance) = decide (j = v.count) := by
      rw [Bool.eq_iff_iff, Bool.not_eq_true', ← Bool.not_eq_true, hexact.lt, decide_eq_true_iff]
      omega
    obtain ⟨x, hat'⟩ := v.exists_at hj
    have hx := hat'.value
    simp only [← hexact.ofBool] at hx
    obtain ⟨m, hm, hvm⟩ := hexact.sub n (D.ofBool (decide (j = v.count))) (by omega)
    have hmove : iotaAdvance D c.from_ m = .ok x :=
      iotaAdvance_ok hexact hfrom (fun ht => hconv ht x hx.1) (by omega)
    refine ⟨⟨x, v.to_, decide (j = v.count)⟩, ?_, hat'⟩
    unfold Cursor.advance
    rw [if_pos ((lt_iff hexact n).1.mpr (by omega)), hdistance, hdone]
    simp only [exec_bind_ok, Bool.not_false, hsteps, hcheck, Bool.false_eq_true, if_false, hflag,
      hm, hmove, hto]
  · omega

theorem advance_backward (hexact : D.Exact t convertible bound) {v : ClosedIotaView t}
    (hconv : t.signed = true → ∀ i : t.Value, v.from_.1 ≤ i.1 → convertible i)
    {i j : Nat} {n : D.Carrier} {c : Cursor t} (hat : v.At i c) (hi : i ≤ v.count) (hij : j < i)
    (hn : D.value n = (j : Int) - i) : ∃ c', c.advance D n = .ok c' ∧ v.At j c' := by
  have hcount := v.count_pred
  have hspan := hexact.span
  have hbounds := And.intro v.from_.2 v.to_.2
  have hc := hat.value
  obtain ⟨x, hat'⟩ := v.exists_at (j := j) (by omega)
  have hx := hat'.value
  rw [decide_eq_false (by omega : ¬ j = v.count)] at hat' hx
  rw [if_neg Bool.false_ne_true] at hx
  simp only at hx
  rw [← hexact.ofBool] at hc
  obtain ⟨m, hm, hvm⟩ := hexact.add n (D.ofBool c.done_) (by omega)
  have hmove : iotaAdvance D c.from_ m = .ok x :=
    iotaAdvance_ok hexact (fun ht => hconv ht c.from_ hc.1) (fun ht => hconv ht x hx.1) (by omega)
  refine ⟨⟨x, v.to_, false⟩, ?_, hat'⟩
  unfold Cursor.advance
  rw [if_neg (mt (lt_iff hexact n).1.mp (by omega)), if_pos ((lt_iff hexact n).2.mpr (by omega)),
    hm, exec_bind_ok, hmove, exec_bind_ok, hat.1]

theorem advance_ok (hexact : D.Exact t convertible bound) {v : ClosedIotaView t}
    (hconv : t.signed = true → ∀ i : t.Value, v.from_.1 ≤ i.1 → convertible i)
    {i j : Nat} {n : D.Carrier} {c : Cursor t} (hat : v.At i c) (hi : i ≤ v.count)
    (hj : j ≤ v.count) (hn : D.value n = (j : Int) - i) :
    ∃ c', c.advance D n = .ok c' ∧ v.At j c' := by
  rcases Nat.lt_trichotomy i j with hlt | rfl | hgt
  · exact advance_forward hexact hconv hat hj hlt hn
  · refine ⟨c, ?_, hat⟩
    unfold Cursor.advance
    rw [if_neg (mt (lt_iff hexact n).1.mp (by omega)),
      if_neg (mt (lt_iff hexact n).2.mp (by omega))]
  · exact advance_backward hexact hconv hat hi hgt hn

theorem distanceTo_ok (hexact : D.Exact t convertible bound) {v : ClosedIotaView t}
    (hconv : t.signed = true → ∀ i : t.Value, v.from_.1 ≤ i.1 → convertible i)
    (hcount : v.count ≤ bound) {i j : Nat} {c c' : Cursor t} (hat : v.At i c)
    (hat' : v.At j c') (hi : i ≤ v.count) (hj : j ≤ v.count) :
    ∃ n, c.distanceTo D c' = .ok n ∧ D.value n = (j : Int) - i := by
  have hpred := v.count_pred
  have hvalue := hat.value
  have hvalue' := hat'.value
  obtain ⟨distance, hdistance, hvd⟩ := iotaDistance_ok hexact (i := c.from_) (j := c'.from_)
    (fun ht => hconv ht _ hvalue.1) (fun ht => hconv ht _ hvalue'.1)
  have hflag := hexact.ofBool c.done_
  have hflag' := hexact.ofBool c'.done_
  obtain ⟨flags, hflags, hvf⟩ := hexact.sub (D.ofBool c'.done_) (D.ofBool c.done_) (by
    split at hflag <;> split at hflag' <;> omega)
  obtain ⟨n, hn, hvn⟩ := hexact.add distance flags (by omega)
  refine ⟨n, ?_, by omega⟩
  rw [Cursor.distanceTo, hdistance, exec_bind_ok, hflags, exec_bind_ok, hn]

end

/-! ## The view as a range of its difference type -/

/-- `distance_to`, read as an integer. -/
def distance (D : DifferenceType) (c that : Cursor t) : Exec Int := do
  let n ← c.distanceTo D that
  .ok (D.value n)

/-- Both directions, jumps by every difference and all distances, the past-the-end position
included. -/
structure CountsSteps (v : ClosedIotaView t) (D : DifferenceType) : Prop where
  elements : Loop.Delivers v.loop v.values
  prev : Loop.PrevUndoesNext v.loop Cursor.prev v.count
  advance : ∀ n : D.Carrier,
    Loop.JumpsAreSteps v.loop Cursor.prev (fun _ => Cursor.advance D n) v.count (· = D.value n)
  distance : Loop.DistancesAreSteps v.loop (distance D) v.count fun _ => True

theorem countsSteps {D : DifferenceType} {convertible : t.Value → Prop} {bound : Nat}
    (hexact : D.Exact t convertible bound) {v : ClosedIotaView t}
    (hconv : t.signed = true → ∀ i : t.Value, v.from_.1 ≤ i.1 → convertible i)
    (hcount : v.count ≤ bound) : v.CountsSteps D := by
  have hnumbers := v.numbers.toNumbering
  rw [v.length_values] at hnumbers
  have hprev := fun i c (hat : v.At (i + 1) c) (_ : i < v.count) => v.prev_ok hat
  refine ⟨v.numbers.delivers, hnumbers.prevUndoesNext (fun _ _ _ => At.unique) hprev, ?_, ?_⟩
  · intro n
    refine hnumbers.jumpsAreSteps (fun _ _ _ => At.unique) hprev fun i j c hat hi hj hn => ?_
    exact advance_ok hexact hconv hat hi hj hn.symm
  · refine hnumbers.distancesAreSteps fun i j c c' hat hat' hi hj _ => ?_
    obtain ⟨n, hn, hvalue⟩ := distanceTo_ok hexact hconv hcount hat hat' hi hj
    rw [ClosedIotaView.distance, hn, exec_bind_ok, hvalue]

/-- From the minimum of the widest signed type no distance can be formed. -/
theorem not_countsSteps_signed {v : ClosedIotaView t} (ht : t.signed = true) (hwidth : t.width = 64)
    (hfrom : v.from_.1 = t.min) : ¬ v.CountsSteps .diffmax := by
  intro h
  obtain ⟨c, c', hc, hc', hdistance⟩ := h.distance 0 (Nat.zero_le _) 0 (Nat.zero_le _) trivial
  have hbegin : v.beginCursor = c := Except.ok.inj hc
  have hfault : iotaDistance .diffmax v.from_ v.from_ = .error .fault := by
    have hconvert := DiffmaxT.ofIntegral_fault ht ⟨by omega, hfrom⟩
    rw [iotaDistance, if_pos ht]
    show (DiffmaxT.ofIntegral t v.from_).bind _ = _
    rw [hconvert]
    rfl
  obtain rfl : c = c' := Except.ok.inj (hc.symm.trans hc')
  subst hbegin
  rw [ClosedIotaView.distance, Cursor.distanceTo, beginCursor, hfault] at hdistance
  cases hdistance

/-- The number of all values of the widest unsigned type is not a difference. -/
theorem not_countsSteps_unsigned {v : ClosedIotaView t} (hcount : v.count = 2 ^ 64) :
    ¬ v.CountsSteps .diffmax := by
  intro h
  obtain ⟨c, c', _, _, hdistance⟩ :=
    h.distance 0 (Nat.zero_le _) v.count (Nat.le_refl _) trivial
  obtain ⟨n, _, hn⟩ := exec_bind_eq_ok.mp hdistance
  have hvalue : DiffmaxT.v n = ((v.count : Nat) : Int) - (0 : Nat) := Except.ok.inj hn
  have habs := DiffmaxT.v_natAbs n
  have hlt := n.val.isLt
  omega

theorem count_le (v : ClosedIotaView t) : (v.count : Int) ≤ 2 ^ t.width := by
  have hcount := v.count_pred
  have hspan := t.span_eq
  have hbounds := And.intro v.from_.2 v.to_.2
  omega

/-- All is well but for the whole range of the widest unsigned type and a start at the minimum
of the widest signed type. -/
theorem countsSteps_iff (v : ClosedIotaView t) :
    v.CountsSteps (DifferenceType.iotaDifference t) ↔
      ¬ (t.width = 64 ∧ v.from_.1 = t.min ∧ (t.signed = false → v.to_.1 = t.max)) := by
  have hcount := v.count_pred
  have hspan := t.span_eq
  have hbounds := And.intro v.from_.2 v.to_.2
  by_cases hwidth : t.width = 64
  · rw [DifferenceType.iotaDifference_wide hwidth]
    rw [hwidth] at hspan
    constructor
    · rintro h ⟨_, hfrom, hto⟩
      cases ht : t.signed with
      | true => exact not_countsSteps_signed ht hwidth hfrom h
      | false =>
        have hto := hto ht
        exact not_countsSteps_unsigned (by omega) h
    · intro h
      refine countsSteps (DifferenceType.exact_diffmax t) (fun ht i hi hmin => ?_) ?_
      · exact h ⟨hwidth, by omega, fun hu => absurd ht (by simp [hu])⟩
      · by_cases hfrom : v.from_.1 = t.min
        · have hto : v.to_.1 ≠ t.max := fun hto => h ⟨hwidth, hfrom, fun _ => hto⟩
          omega
        · omega
  · refine iff_of_true ?_ fun h => hwidth h.1
    have hnarrow : t.width < 64 := Nat.lt_of_le_of_ne t.width_le hwidth
    obtain ⟨bound, hbound, hexact⟩ := DifferenceType.exact_iotaDifference_narrow hnarrow
    refine countsSteps hexact (fun _ _ _ => trivial) (Nat.le_trans ?_ hbound)
    exact_mod_cast v.count_le

/-- One value, and all values. -/
theorem not_countsSteps_extremes :
    ¬ CountsSteps (t := .int64) ⟨⟨-2 ^ 63, by decide⟩, ⟨-2 ^ 63, by decide⟩, by decide⟩
        (DifferenceType.iotaDifference .int64) ∧
      ¬ CountsSteps (t := .uint64) ⟨⟨0, by decide⟩, ⟨2 ^ 64 - 1, by decide⟩, by decide⟩
        (DifferenceType.iotaDifference .uint64) := by
  rw [DifferenceType.iotaDifference_wide rfl, DifferenceType.iotaDifference_wide rfl]
  exact ⟨not_countsSteps_signed rfl rfl rfl, not_countsSteps_unsigned rfl⟩

end

end ClosedIotaView

end EARanges.View
