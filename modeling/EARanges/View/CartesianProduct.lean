import EARanges.Iterator.DifferenceT
import EARanges.Iterator.RangeTraits
import EARanges.Support.InPlace
import EARanges.Support.Numbered
import EARanges.Support.Tuples

/-!
# `cartesian_product_view`

view/cartesian_product.hpp. A cursor is one iterator for each component, the digits of a
number in mixed radix. The members recurse on the number of components, from the last
one down to the first; here they recurse on the list of the components behind the first,
the last one in front. `difference_type` is `intmax_t`, 64 bits wide.
-/
namespace EARanges.View
open EARanges.Support EARanges.Iterator

/-- One of the viewed ranges. Its length is a `range_difference_t`. -/
structure Component (α : Type) where
  elems : List α
  traits : RangeTraits
  length_le : (elems.length : Int) ≤ diffMax

/-- The index of `end(v)`. -/
def Component.last {α : Type} (v : Component α) : Nat := v.elems.length

/-- `views_`, the first apart and the others from the last one down. -/
structure CartesianProductView (α : Type) where
  view0 : Component α
  views : List (Component α)

/-- `its_`, in the order of the views. -/
structure ProductCursor where
  it0 : Nat
  its : List Nat
  deriving DecidableEq, Repr

namespace CartesianProductView

variable {α : Type}

/-- The components in the order of the tuples. -/
def components (v : CartesianProductView α) : List (Component α) := v.view0 :: v.views.reverse

def canSize (v : CartesianProductView α) : Bool := v.components.all fun c => c.traits.sized

def canDistance (v : CartesianProductView α) : Bool :=
  canSize v && v.components.all fun c => c.traits.sizedIterator

def canRandom (v : CartesianProductView α) : Bool :=
  canDistance v && v.components.all fun c => c.traits.randomAccess

def canBidi (v : CartesianProductView α) : Bool :=
  canRandom v || v.components.all fun c => c.traits.common && c.traits.bidirectional

/-- `next_`. -/
def nextFrom (v : CartesianProductView α) :
    List (Component α) → ProductCursor → Exec ProductCursor
  | [], ⟨it0, its⟩ => do
    let it0 ← incrTo v.view0.last it0
    .ok ⟨it0, its⟩
  | r :: rs, ⟨it0, i :: is⟩ => do
    let i ← incrTo r.last i
    if i = r.last then
      let c ← nextFrom v rs ⟨it0, is⟩
      .ok ⟨c.it0, 0 :: c.its⟩
    else .ok ⟨it0, i :: is⟩
  | _ :: _, ⟨_, []⟩ => .error .fault

def next (v : CartesianProductView α) (c : ProductCursor) : Exec ProductCursor :=
  nextFrom v v.views c

/-- `prev_`. A first digit at its begin has nothing to borrow from. -/
def prevFrom (v : CartesianProductView α) :
    List (Component α) → ProductCursor → Exec ProductCursor
  | [], ⟨it0, its⟩ =>
    if it0 = 0 then .error .fault
    else do
      let it0 ← decr v.view0.last it0
      .ok ⟨it0, its⟩
  | r :: rs, ⟨it0, i :: is⟩ =>
    if i = 0 then do
      let i ← advanceToEnd r.traits r.last i
      let c ← prevFrom v rs ⟨it0, is⟩
      let i ← decr r.last i
      .ok ⟨c.it0, i :: c.its⟩
    else do
      let i ← decr r.last i
      .ok ⟨it0, i :: is⟩
  | _ :: _, ⟨_, []⟩ => .error .fault

def prev (v : CartesianProductView α) (c : ProductCursor) : Exec ProductCursor :=
  prevFrom v v.views c

/-- `equal_` on the iterators behind the first. -/
def equalFrom : List Nat → List Nat → Bool
  | [], [] => true
  | i :: is, j :: js => i == j && equalFrom is js
  | _, _ => false

def equal (c that : ProductCursor) : Bool := equalFrom c.its that.its && c.it0 == that.it0

/-- `distance_`. -/
def distanceFrom : List (Component α) → ProductCursor → ProductCursor → Exec Int
  | [], c, that => signed ((that.it0 : Int) - c.it0)
  | r :: rs, ⟨it0, i :: is⟩, ⟨jt0, j :: js⟩ => do
    let d ← distanceFrom rs ⟨it0, is⟩ ⟨jt0, js⟩
    let scaled ← signed (d * r.last)
    signed (scaled + ((j : Int) - i))
  | _ :: _, _, _ => .error .fault

def distanceTo (v : CartesianProductView α) (c that : ProductCursor) : Exec Int :=
  distanceFrom v.views c that

/-- `n / my_size` and `n % my_size`, which truncate. -/
def quotRem (n : Int) (mySize : Nat) : Exec (Int × Int) :=
  if mySize = 0 then .error .fault else .ok (n.tdiv mySize, n.tmod mySize)

/-- What makes a negative remainder nonnegative. -/
def floorCorrect (mySize : Nat) (nDiv nMod : Int) : Exec (Int × Int) :=
  if nMod < 0 then do
    let nDiv ← signed (nDiv - 1)
    .ok (nDiv, nMod + mySize)
  else .ok (nDiv, nMod)

/-- `advance_` at the first component. -/
def advanceFirst (v : CartesianProductView α) (n : Int) (it0 : Nat) : Exec Nat :=
  if n = 0 then .ok it0
  else if ¬ (it0 < v.view0.last ∨ it0 = v.view0.last ∧ n < 0) then .error .fault
  else if ¬ n < diffMax - it0 then .error .fault
  else do
    let n ← signed (n + it0)
    let (nDiv, nMod) ← quotRem n v.view0.last
    if ¬ (0 ≤ nMod ∧ nMod < v.view0.last) then .error .fault
    else if nDiv > 0 then
      if ¬ (nDiv = 1 ∧ nMod = 0) then .error .fault
      else jump v.view0.last v.view0.last 0
    else if nDiv < 0 then
      if ¬ (nDiv = -1 ∧ nMod = 0) then .error .fault
      else jump nMod v.view0.last 0
    else jump nMod v.view0.last 0

/-- `advance_`. -/
def advanceFrom (v : CartesianProductView α) :
    List (Component α) → Int → ProductCursor → Exec ProductCursor
  | [], n, ⟨it0, its⟩ => do
    let it0 ← advanceFirst v n it0
    .ok ⟨it0, its⟩
  | r :: rs, n, ⟨it0, i :: is⟩ =>
    if n = 0 then .ok ⟨it0, i :: is⟩
    else if ¬ i < r.last then .error .fault
    else if ¬ n < diffMax - i then .error .fault
    else do
      let n ← signed (n + i)
      let (nDiv, nMod) ← quotRem n r.last
      let (nDiv, nMod) ← floorCorrect r.last nDiv nMod
      let c ← advanceFrom v rs nDiv ⟨it0, is⟩
      if ¬ (0 ≤ nMod ∧ nMod < r.last) then .error .fault
      else do
        let i ← jump nMod r.last 0
        .ok ⟨c.it0, i :: c.its⟩
  | _ :: _, _, ⟨_, []⟩ => .error .fault

def advance (v : CartesianProductView α) (n : Int) (c : ProductCursor) : Exec ProductCursor :=
  advanceFrom v v.views n c

/-- `check_at_end_`. -/
def checkAtEnd (v : CartesianProductView α) :
    List (Component α) → ProductCursor → Bool → Exec ProductCursor
  | [], ⟨it0, its⟩, atEnd =>
    if atEnd then do
      let it0 ← advanceToEnd v.view0.traits v.view0.last it0
      .ok ⟨it0, its⟩
    else .ok ⟨it0, its⟩
  | r :: rs, ⟨it0, i :: is⟩, atEnd => do
    let c ← checkAtEnd v rs ⟨it0, is⟩ (atEnd || i == r.last)
    .ok ⟨c.it0, i :: c.its⟩
  | _ :: _, ⟨_, []⟩, _ => .error .fault

def beginCursor (v : CartesianProductView α) : Exec ProductCursor :=
  checkAtEnd v v.views ⟨0, v.views.map fun _ => 0⟩ false

/-- `cursor(end_tag, view)`. Without a common end the first iterator is moved by the
distance, from where the begin has it. -/
def endCursor (v : CartesianProductView α) : Exec ProductCursor := do
  let c ← beginCursor v
  if v.view0.traits.common then .ok ⟨v.view0.last, c.its⟩
  else do
    let it0 ← jump v.view0.last v.view0.last c.it0
    .ok ⟨it0, c.its⟩

/-- Against the end cursor, or the default sentinel where there is none. -/
def atEnd (v : CartesianProductView α) (c : ProductCursor) : Exec Bool :=
  if canBidi v then do
    let e ← endCursor v
    .ok (equal c e)
  else .ok (c.it0 == v.view0.last)

def readFrom (v : CartesianProductView α) : List (Component α) → ProductCursor → Exec (List α)
  | [], ⟨it0, _⟩ => do
    let x ← deref v.view0.elems it0
    .ok [x]
  | r :: rs, ⟨it0, i :: is⟩ => do
    let xs ← readFrom v rs ⟨it0, is⟩
    let x ← deref r.elems i
    .ok (xs ++ [x])
  | _ :: _, ⟨_, []⟩ => .error .fault

def read (v : CartesianProductView α) (c : ProductCursor) : Exec (List α) := readFrom v v.views c

/-- The product of the sizes in `uintmax_t`. -/
def size (v : CartesianProductView α) : Nat :=
  v.components.foldl (fun s c => unsigned (s * c.last)) 1

def loop (v : CartesianProductView α) : Loop ProductCursor (List α) where
  start := beginCursor v
  atEnd := atEnd v
  read := read v
  next := next v

/-! ## Numbers in mixed radix -/

/-- The number of tuples over the first component and `rs`. -/
def countFrom (v : CartesianProductView α) : List (Component α) → Nat
  | [] => v.view0.last
  | r :: rs => countFrom v rs * r.last

def count (v : CartesianProductView α) : Nat := countFrom v v.views

/-- The digits of `p`. The first digit is what is left, so the digits of the number of
tuples are a cursor at the end. -/
def digits : List (Component α) → Nat → ProductCursor
  | [], p => ⟨p, []⟩
  | r :: rs, p => ⟨(digits rs (p / r.last)).it0, p % r.last :: (digits rs (p / r.last)).its⟩

def endDigits (v : CartesianProductView α) (rs : List (Component α)) : ProductCursor :=
  ⟨v.view0.last, rs.map fun _ => 0⟩

theorem last_pos {v : CartesianProductView α} {r : Component α} {rs : List (Component α)}
    (h : 0 < countFrom v (r :: rs)) : 0 < r.last :=
  Nat.pos_of_mul_pos_left h

theorem countFrom_pos {v : CartesianProductView α} {r : Component α} {rs : List (Component α)}
    (h : 0 < countFrom v (r :: rs)) : 0 < countFrom v rs :=
  Nat.pos_of_mul_pos_right h

theorem digits_zero (rs : List (Component α)) : digits rs 0 = ⟨0, rs.map fun _ => 0⟩ := by
  induction rs with
  | nil => rfl
  | cons r rs ih => rw [digits, Nat.zero_div, Nat.zero_mod, ih, List.map_cons]

theorem digits_countFrom {v : CartesianProductView α} {rs : List (Component α)}
    (h : 0 < countFrom v rs) : digits rs (countFrom v rs) = endDigits v rs := by
  induction rs with
  | nil => rfl
  | cons r rs ih =>
    have hdiv : countFrom v (r :: rs) / r.last = countFrom v rs :=
      Nat.mul_div_cancel _ (last_pos h)
    have hmod : countFrom v (r :: rs) % r.last = 0 := Nat.mul_mod_left _ _
    rw [digits, hdiv, hmod, ih (countFrom_pos h)]
    rfl

theorem digits_injective {rs : List (Component α)} {p q : Nat} (h : digits rs p = digits rs q) :
    p = q := by
  induction rs generalizing p q with
  | nil => exact (ProductCursor.mk.inj h).1
  | cons r rs ih =>
    obtain ⟨hit0, hits⟩ := ProductCursor.mk.inj h
    obtain ⟨hmod, hrest⟩ := List.cons.inj hits
    have hdiv : p / r.last = q / r.last := by
      apply ih
      cases hp : digits rs (p / r.last)
      cases hq : digits rs (q / r.last)
      rw [hp, hq] at hit0 hrest
      exact congrArg₂ ProductCursor.mk hit0 hrest
    rw [← Nat.div_add_mod p r.last, hdiv, hmod, Nat.div_add_mod]

theorem succ_of_carry {p r : Nat} (hr : 0 < r) (h : p % r + 1 = r) :
    (p + 1) / r = p / r + 1 ∧ (p + 1) % r = 0 := by
  have hp := Nat.div_add_mod p r
  apply (Nat.div_mod_unique hr).mpr
  rw [Nat.mul_add, Nat.mul_one]
  omega

theorem succ_of_no_carry {p r : Nat} (h : p % r + 1 < r) :
    (p + 1) / r = p / r ∧ (p + 1) % r = p % r + 1 := by
  have hp := Nat.div_add_mod p r
  apply (Nat.div_mod_unique (by omega)).mpr
  omega

/-! ## What the members do to the digits -/

theorem nextFrom_digits {v : CartesianProductView α} {rs : List (Component α)} {p : Nat}
    (h : p < countFrom v rs) : nextFrom v rs (digits rs p) = .ok (digits rs (p + 1)) := by
  induction rs generalizing p with
  | nil =>
    have hincr : incrTo v.view0.last p = .ok (p + 1) := incrTo_ok h
    rw [digits, nextFrom, hincr]
    rfl
  | cons r rs ih =>
    have hr : 0 < r.last := last_pos (Nat.zero_lt_of_lt h)
    have hmod : p % r.last < r.last := Nat.mod_lt p hr
    have hincr : incrTo r.last (p % r.last) = .ok (p % r.last + 1) := incrTo_ok hmod
    rw [digits, nextFrom, hincr, exec_bind_ok]
    by_cases hcarry : p % r.last + 1 = r.last
    · have hdiv : p / r.last < countFrom v rs := Nat.div_lt_of_lt_mul (Nat.mul_comm _ _ ▸ h)
      obtain ⟨hquot, hrem⟩ := succ_of_carry hr hcarry
      rw [if_pos hcarry, ih hdiv, digits, hquot, hrem]
      rfl
    · obtain ⟨hquot, hrem⟩ := succ_of_no_carry (by omega : p % r.last + 1 < r.last)
      rw [if_neg hcarry, digits, hquot, hrem]

theorem prevFrom_digits {v : CartesianProductView α} {rs : List (Component α)} {p : Nat}
    (h : p < countFrom v rs) : prevFrom v rs (digits rs (p + 1)) = .ok (digits rs p) := by
  induction rs generalizing p with
  | nil =>
    have hdecr : decr v.view0.last (p + 1) = .ok p := decr_succ _ p
    rw [digits, prevFrom, if_neg (Nat.succ_ne_zero p), hdecr]
    rfl
  | cons r rs ih =>
    have hr : 0 < r.last := last_pos (Nat.zero_lt_of_lt h)
    have hmod : p % r.last < r.last := Nat.mod_lt p hr
    by_cases hcarry : p % r.last + 1 = r.last
    · have hdiv : p / r.last < countFrom v rs := Nat.div_lt_of_lt_mul (Nat.mul_comm _ _ ▸ h)
      obtain ⟨hquot, hrem⟩ := succ_of_carry hr hcarry
      have hdecr : decr r.last r.last = .ok (p % r.last) := by
        rw [decr_ok hr]
        congr 1
        omega
      rw [digits, hquot, hrem, prevFrom, if_pos rfl, advanceToEnd_eq r.traits (Nat.zero_le _),
        exec_bind_ok, ih hdiv, exec_bind_ok, hdecr]
      rfl
    · obtain ⟨hquot, hrem⟩ := succ_of_no_carry (by omega : p % r.last + 1 < r.last)
      have hdecr : decr r.last (p % r.last + 1) = .ok (p % r.last) := decr_succ _ _
      rw [digits, hquot, hrem, prevFrom, if_neg (Nat.succ_ne_zero _), hdecr]
      rfl

/-- With its correction the truncating division rounds down. -/
theorem floorCorrect_eq {m : Int} {r : Nat} (hr : 0 < r) (hlow : diffMin ≤ m / r)
    (hhigh : m / r ≤ diffMax) : floorCorrect r (m.tdiv r) (m.tmod r) = .ok (m / r, m % r) := by
  have hpos : (0 : Int) < r := Int.natCast_pos.mpr hr
  have hsum := Int.tmod_add_mul_tdiv m r
  have hlt := Int.tmod_lt_of_pos m hpos
  have hgt := Int.lt_tmod_of_pos m hpos
  unfold floorCorrect
  split
  next hneg =>
    have hexact : m.tmod r + r + r * (m.tdiv r - 1) = m := by
      rw [Int.mul_sub]
      omega
    obtain ⟨hdiv, hmod⟩ := (Int.ediv_emod_unique hpos).mpr
      ⟨hexact, by omega, by omega⟩
    rw [hdiv] at hlow hhigh
    rw [signed_ok hlow hhigh, hdiv, hmod]
    rfl
  next hge =>
    obtain ⟨hdiv, hmod⟩ := (Int.ediv_emod_unique hpos).mpr ⟨hsum, by omega, hlt⟩
    rw [hdiv, hmod]

theorem advanceFirst_eq {v : CartesianProductView α} {p q : Nat} (hp : p ≤ v.view0.last)
    (hq : q ≤ v.view0.last) (hpos : 0 < v.view0.last) (hfit : (v.view0.last : Int) < diffMax) :
    advanceFirst v ((q : Int) - p) p = .ok q := by
  have hsum : (q : Int) - p + p = q := by omega
  have hin : signed ((q : Int) - p + p) = .ok q := by
    rw [hsum]
    exact signed_of_abs (by omega) (by omega)
  have hdiv : (q : Int).tdiv v.view0.last = (q / v.view0.last : Nat) := (Int.ofNat_tdiv _ _).symm
  have hmod : (q : Int).tmod v.view0.last = (q % v.view0.last : Nat) := (Int.ofNat_tmod _ _).symm
  have hquot : quotRem q v.view0.last =
      .ok ((q / v.view0.last : Nat), (q % v.view0.last : Nat)) := by
    rw [quotRem, if_neg (by omega), hdiv, hmod]
  have hlt : q % v.view0.last < v.view0.last := Nat.mod_lt q hpos
  unfold advanceFirst
  by_cases hzero : (q : Int) - p = 0
  · rw [if_pos hzero]
    congr 1
    omega
  rw [if_neg hzero, if_neg (by omega), if_neg (by omega), hin, exec_bind_ok, hquot,
    exec_bind_ok]
  dsimp only
  rw [if_neg (by omega)]
  by_cases hend : q = v.view0.last
  · have hone : q / v.view0.last = 1 := by rw [hend, Nat.div_self hpos]
    have hnone : q % v.view0.last = 0 := by rw [hend, Nat.mod_self]
    rw [hone, hnone, if_pos (by omega), if_neg (by omega), jump, if_pos (by omega)]
    congr 1
    omega
  · have hnone : q / v.view0.last = 0 := Nat.div_eq_of_lt (by omega)
    have hrest : q % v.view0.last = q := Nat.mod_eq_of_lt (by omega)
    rw [hnone, hrest, if_neg (by omega), if_neg (by omega), jump, if_pos (by omega)]
    congr 1
    omega

/-- A jump from `p` to `q`, measured from the begin of the block that `p` is in. -/
theorem blockJump_eq {n : Nat} (hn : 0 < n) (p q : Nat) :
    ((q : Int) - p + (p % n : Nat)) / n = (q / n : Nat) - (p / n : Nat) ∧
      ((q : Int) - p + (p % n : Nat)) % n = (q % n : Nat) := by
  have hpsum := congrArg Int.ofNat (Nat.div_add_mod p n)
  have hqsum := congrArg Int.ofNat (Nat.div_add_mod q n)
  simp only [Int.ofNat_eq_natCast, Int.natCast_add, Int.natCast_mul] at hpsum hqsum
  have hsum : ((q % n : Nat) : Int) + n * ((q / n : Nat) - (p / n : Nat)) =
      (q : Int) - p + (p % n : Nat) := by
    rw [Int.mul_sub]
    omega
  have hlt : q % n < n := Nat.mod_lt q hn
  exact (Int.ediv_emod_unique (Int.natCast_pos.mpr hn)).mpr ⟨hsum, by omega, by omega⟩

theorem advanceFrom_digits {v : CartesianProductView α} {rs : List (Component α)} {p q : Nat}
    (hp : p ≤ countFrom v rs) (hq : q ≤ countFrom v rs) (hpos : 0 < countFrom v rs)
    (hfit : (countFrom v rs : Int) < diffMax) :
    advanceFrom v rs ((q : Int) - p) (digits rs p) = .ok (digits rs q) := by
  induction rs generalizing p q with
  | nil =>
    rw [digits, advanceFrom, advanceFirst_eq hp hq hpos hfit]
    rfl
  | cons r rs ih =>
    have hr : 0 < r.last := last_pos hpos
    have hmod : p % r.last < r.last := Nat.mod_lt p hr
    have hmodle : p % r.last ≤ p := Nat.mod_le p r.last
    have hcount : countFrom v rs ≤ countFrom v (r :: rs) := Nat.le_mul_of_pos_right _ hr
    have hpdiv : p / r.last ≤ countFrom v rs := Nat.div_le_of_le_mul (Nat.mul_comm _ _ ▸ hp)
    have hqdiv : q / r.last ≤ countFrom v rs := Nat.div_le_of_le_mul (Nat.mul_comm _ _ ▸ hq)
    rw [digits, advanceFrom]
    by_cases hzero : (q : Int) - p = 0
    · have heq : p = q := by omega
      rw [if_pos hzero, ← heq, digits]
    obtain ⟨hdiv, hrem⟩ := blockJump_eq hr p q
    have hn : signed ((q : Int) - p + (p % r.last : Nat)) = .ok (q - p + (p % r.last : Nat)) :=
      signed_of_abs (by omega) (by omega)
    have hquot : -diffMax ≤ ((q : Int) - p + (p % r.last : Nat)) / r.last ∧
        ((q : Int) - p + (p % r.last : Nat)) / r.last ≤ diffMax := by
      rw [hdiv]
      generalize q / r.last = a at hqdiv ⊢
      generalize p / r.last = b at hpdiv ⊢
      omega
    have hqlt : q % r.last < r.last := Nat.mod_lt q hr
    have hjump : jump ((q % r.last : Nat) : Int) r.last 0 = .ok (q % r.last) := by
      rw [jump, if_pos (by omega)]
      congr 1
      omega
    rw [if_neg hzero, if_neg (by omega), if_neg (by omega), hn, exec_bind_ok, quotRem,
      if_neg (by omega), exec_bind_ok]
    dsimp only
    rw [floorCorrect_eq hr (diffMin_le hquot.1) hquot.2, exec_bind_ok]
    dsimp only
    rw [hdiv, hrem, ih hpdiv hqdiv (countFrom_pos hpos) (by omega), exec_bind_ok, if_neg (by omega),
      hjump, digits]
    rfl

/-- A distance is the distance of the blocks and what is left of it. -/
theorem blockDistance_eq (n p q : Nat) :
    (((q / n : Nat) : Int) - (p / n : Nat)) * n =
        ((n * (q / n) : Nat) : Int) - (n * (p / n) : Nat) ∧
      ((n * (q / n) : Nat) : Int) - (n * (p / n) : Nat) + ((q % n : Nat) - (p % n : Nat)) =
        (q : Int) - p := by
  have hpsum := congrArg Int.ofNat (Nat.div_add_mod p n)
  have hqsum := congrArg Int.ofNat (Nat.div_add_mod q n)
  simp only [Int.ofNat_eq_natCast, Int.natCast_add, Int.natCast_mul] at hpsum hqsum
  constructor
  · rw [Int.sub_mul, Int.natCast_mul, Int.natCast_mul, Int.mul_comm, Int.mul_comm (p / n : Nat)]
  · rw [Int.natCast_mul, Int.natCast_mul]
    omega

theorem distanceFrom_digits {v : CartesianProductView α} {rs : List (Component α)} {p q : Nat}
    (hp : p ≤ countFrom v rs) (hq : q ≤ countFrom v rs) (hpos : 0 < countFrom v rs)
    (hfit : (countFrom v rs : Int) ≤ diffMax) :
    distanceFrom rs (digits rs p) (digits rs q) = .ok ((q : Int) - p) := by
  induction rs generalizing p q with
  | nil =>
    have hin : signed ((q : Int) - p) = .ok ((q : Int) - p) :=
      signed_of_abs (by omega) (by omega)
    exact hin
  | cons r rs ih =>
    have hr : 0 < r.last := last_pos hpos
    have hcount : countFrom v rs ≤ countFrom v (r :: rs) := Nat.le_mul_of_pos_right _ hr
    have hpdiv : p / r.last ≤ countFrom v rs := Nat.div_le_of_le_mul (Nat.mul_comm _ _ ▸ hp)
    have hqdiv : q / r.last ≤ countFrom v rs := Nat.div_le_of_le_mul (Nat.mul_comm _ _ ▸ hq)
    have hpmul : r.last * (p / r.last) ≤ p := Nat.mul_div_le p r.last
    have hqmul : r.last * (q / r.last) ≤ q := Nat.mul_div_le q r.last
    obtain ⟨hscaled, htotal⟩ := blockDistance_eq r.last p q
    rw [digits, digits, distanceFrom, ih hpdiv hqdiv (countFrom_pos hpos) (by omega), exec_bind_ok,
      hscaled, signed_of_abs (by omega) (by omega), exec_bind_ok, htotal,
      signed_of_abs (by omega) (by omega)]

theorem distanceFrom_self (rs : List (Component α)) (it0 : Nat) :
    distanceFrom rs ⟨it0, rs.map fun _ => 0⟩ ⟨it0, rs.map fun _ => 0⟩ = .ok 0 := by
  have hzero : signed 0 = .ok 0 := rfl
  induction rs with
  | nil => rw [List.map_nil, distanceFrom, Int.sub_self, hzero]
  | cons r rs ih =>
    rw [List.map_cons, distanceFrom, ih, exec_bind_ok, Int.zero_mul, hzero, exec_bind_ok,
      Int.sub_self, Int.add_zero, hzero]

/-- Whatever `distance_` returns has gone through the difference type. -/
theorem distanceFrom_le {rs : List (Component α)} {c that : ProductCursor} {d : Int}
    (h : distanceFrom rs c that = .ok d) : d ≤ diffMax := by
  have hsigned : ∀ {x : Int}, signed x = .ok d → d ≤ diffMax := by
    intro x hx
    unfold signed at hx
    split at hx
    next hin => exact Except.ok.inj hx ▸ hin.2
    next => cases hx
  obtain ⟨it0, its⟩ := c
  obtain ⟨jt0, jts⟩ := that
  cases rs with
  | nil => exact hsigned h
  | cons r rs =>
    cases its with
    | nil => cases h
    | cons i is =>
      cases jts with
      | nil => cases h
      | cons j js =>
        rw [distanceFrom] at h
        obtain ⟨d', _, h⟩ := exec_bind_eq_ok.mp h
        obtain ⟨scaled, _, h⟩ := exec_bind_eq_ok.mp h
        exact hsigned h

theorem equalFrom_iff {is js : List Nat} : equalFrom is js = true ↔ is = js := by
  induction is generalizing js with
  | nil => cases js <;> simp [equalFrom]
  | cons i is ih =>
    cases js with
    | nil => simp [equalFrom]
    | cons j js => rw [equalFrom, Bool.and_eq_true, beq_iff_eq, ih, List.cons.injEq]

theorem equal_iff {c that : ProductCursor} : equal c that = true ↔ c = that := by
  cases c
  cases that
  rw [equal, Bool.and_eq_true, beq_iff_eq, equalFrom_iff, ProductCursor.mk.injEq, and_comm]

/-! ## Reading -/

/-- The tuples over the first component and `rs`. -/
def tuplesFrom (v : CartesianProductView α) (rs : List (Component α)) : List (List α) :=
  tuples (v.view0.elems :: (rs.map Component.elems).reverse)

theorem tuplesFrom_nil (v : CartesianProductView α) :
    tuplesFrom v [] = v.view0.elems.map fun x => [x] := by
  rw [List.map_eq_flatMap]
  rfl

theorem tuplesFrom_cons (v : CartesianProductView α) (r : Component α) (rs : List (Component α)) :
    tuplesFrom v (r :: rs) = (tuplesFrom v rs).flatMap fun t => r.elems.map fun x => t ++ [x] := by
  rw [tuplesFrom, List.map_cons, List.reverse_cons, ← List.cons_append, tuples_concat]
  rfl

theorem length_tuplesFrom (v : CartesianProductView α) (rs : List (Component α)) :
    (tuplesFrom v rs).length = countFrom v rs := by
  induction rs with
  | nil =>
    rw [tuplesFrom_nil, List.length_map]
    rfl
  | cons r rs ih =>
    rw [tuplesFrom_cons, length_flatMap_map, ih]
    rfl

theorem readFrom_digits {v : CartesianProductView α} {rs : List (Component α)} {p : Nat}
    {t : List α} (h : (tuplesFrom v rs)[p]? = some t) : readFrom v rs (digits rs p) = .ok t := by
  induction rs generalizing p t with
  | nil =>
    rw [tuplesFrom_nil, List.getElem?_map, Option.map_eq_some_iff] at h
    obtain ⟨x, hx, rfl⟩ := h
    rw [digits, readFrom, deref_of_some hx, exec_bind_ok]
  | cons r rs ih =>
    have hlt := (List.getElem?_eq_some_iff.mp h).1
    rw [length_tuplesFrom] at hlt
    have hr : 0 < r.last := last_pos (Nat.zero_lt_of_lt hlt)
    have hmod : p % r.last < r.elems.length := Nat.mod_lt p hr
    have hsplit := getElem?_flatMap_map (q := p / r.last) (tuplesFrom v rs)
      (fun t x => t ++ [x]) hmod
    have hindex : p / r.last * r.elems.length + p % r.last = p := Nat.div_add_mod' p r.last
    rw [hindex, ← tuplesFrom_cons, h] at hsplit
    obtain ⟨t', ht', hmap⟩ := Option.bind_eq_some_iff.mp hsplit.symm
    obtain ⟨x, hx, rfl⟩ := Option.map_eq_some_iff.mp hmap
    rw [digits, readFrom, ih ht', exec_bind_ok, deref_of_some hx, exec_bind_ok]

theorem unsigned_mul_mod (a b : Nat) :
    unsigned ((a % 0x10000000000000000 : Nat) * b) = a * b % 0x10000000000000000 := by
  rw [unsigned, ← Int.natCast_mul, Nat.mul_mod]
  have hcast : (0x10000000000000000 : Int) = (0x10000000000000000 : Nat) := rfl
  rw [hcast, ← Int.natCast_mod, Int.toNat_natCast, Nat.mul_mod, Nat.mod_mod]

/-- The size wraps where there are more tuples than `uintmax_t` counts. -/
theorem size_eq (v : CartesianProductView α) : size v = count v % 0x10000000000000000 := by
  have hfold : ∀ rs : List (Component α),
      (v.view0 :: rs.reverse).foldl (fun s c => unsigned (s * c.last)) 1 =
        countFrom v rs % 0x10000000000000000 := by
    intro rs
    induction rs with
    | nil =>
      rw [List.reverse_nil, List.foldl_cons, List.foldl_nil, unsigned, countFrom]
      omega
    | cons r rs ih =>
      rw [List.reverse_cons, ← List.cons_append, List.foldl_append, ih, List.foldl_cons,
        List.foldl_nil, unsigned_mul_mod, countFrom]
  exact hfold v.views

/-! ## Begin and end -/

theorem countFrom_eq_zero {v : CartesianProductView α} {rs : List (Component α)} :
    countFrom v rs = 0 ↔ v.view0.last = 0 ∨ ∃ r ∈ rs, r.last = 0 := by
  induction rs with
  | nil => simp [countFrom]
  | cons r rs ih =>
    rw [countFrom, Nat.mul_eq_zero, ih, List.exists_mem_cons_iff, or_assoc]
    exact or_congr_right or_comm

/-- If one component is empty the begin becomes an end. -/
theorem checkAtEnd_zeros (v : CartesianProductView α) (rs : List (Component α)) (b : Bool) :
    checkAtEnd v rs ⟨0, rs.map fun _ => 0⟩ b =
      .ok (if b = true ∨ countFrom v rs = 0 then endDigits v rs else ⟨0, rs.map fun _ => 0⟩) := by
  induction rs generalizing b with
  | nil =>
    rw [List.map_nil, checkAtEnd]
    cases b with
    | true =>
      rw [if_pos rfl, advanceToEnd_eq _ (Nat.zero_le _), if_pos (.inl rfl)]
      rfl
    | false =>
      rw [if_neg Bool.false_ne_true]
      split
      next hempty =>
        have hlast : v.view0.last = 0 := hempty.resolve_left Bool.false_ne_true
        rw [endDigits, hlast]
        rfl
      next => rfl
  | cons r rs ih =>
    have hcondition : ((b || 0 == r.last) = true ∨ countFrom v rs = 0) ↔
        (b = true ∨ countFrom v (r :: rs) = 0) := by
      rw [countFrom, Nat.mul_eq_zero, Bool.or_eq_true, beq_iff_eq, eq_comm (a := 0), or_assoc]
      exact or_congr_right or_comm
    rw [List.map_cons, checkAtEnd, ih, exec_bind_ok]
    by_cases hend : b = true ∨ countFrom v (r :: rs) = 0
    · rw [if_pos (hcondition.mpr hend), if_pos hend]
      rfl
    · rw [if_neg fun h => hend (hcondition.mp h), if_neg hend]

/-- The cursor before tuple number `p`. -/
def cursorAt (v : CartesianProductView α) (p : Nat) : ProductCursor :=
  if count v = 0 then endDigits v v.views else digits v.views p

/-- The cursors numbered `p`. -/
def At (v : CartesianProductView α) (p : Nat) (c : ProductCursor) : Prop :=
  p ≤ count v ∧ c = cursorAt v p

theorem At.unique {v : CartesianProductView α} (p : Nat) (c c' : ProductCursor) (h : At v p c)
    (h' : At v p c') : c = c' := h.2.trans h'.2.symm

theorem cursorAt_pos {v : CartesianProductView α} (h : 0 < count v) (p : Nat) :
    cursorAt v p = digits v.views p := if_neg (Nat.ne_of_gt h)

theorem cursorAt_count (v : CartesianProductView α) :
    cursorAt v (count v) = endDigits v v.views := by
  unfold cursorAt
  split
  next => rfl
  next hne => exact digits_countFrom (Nat.pos_of_ne_zero hne)

theorem cursorAt_injective {v : CartesianProductView α} {p q : Nat} (hp : p ≤ count v)
    (hq : q ≤ count v) (h : cursorAt v p = cursorAt v q) : p = q := by
  rcases Nat.eq_zero_or_pos (count v) with hzero | hpos
  · omega
  · rw [cursorAt_pos hpos, cursorAt_pos hpos] at h
    exact digits_injective h

theorem beginCursor_eq (v : CartesianProductView α) : beginCursor v = .ok (cursorAt v 0) := by
  rw [beginCursor, checkAtEnd_zeros, cursorAt, digits_zero]
  by_cases hempty : count v = 0
  · rw [if_pos (.inr hempty), if_pos hempty]
  · rw [if_neg fun h => hempty (h.resolve_left Bool.false_ne_true), if_neg hempty]

/-- The first range has no common end and is not empty, but another one is: then the begin
already stands at the end, and the end is moved there from the begin. -/
structure EndOverruns (v : CartesianProductView α) : Prop where
  not_common : v.view0.traits.common = false
  first_nonempty : 0 < v.view0.last
  other_empty : ∃ r ∈ v.views, r.last = 0

theorem endCursor_eq {v : CartesianProductView α} (h : ¬ EndOverruns v) :
    endCursor v = .ok (cursorAt v (count v)) := by
  rw [endCursor, beginCursor_eq, exec_bind_ok, cursorAt_count]
  split
  next =>
    unfold cursorAt
    split
    next => rfl
    next => rw [digits_zero]; rfl
  next hcommon =>
    unfold cursorAt
    split
    next hempty =>
      have hfirst : v.view0.last = 0 := by
        rcases countFrom_eq_zero.mp hempty with hfirst | hother
        · exact hfirst
        · by_contra hne
          exact h ⟨Bool.eq_false_of_not_eq_true hcommon, Nat.pos_of_ne_zero hne, hother⟩
      rw [endDigits, hfirst]
      rfl
    next =>
      have hjump : jump v.view0.last v.view0.last 0 = .ok v.view0.last := by
        rw [jump, if_pos (by omega)]
        congr 1
        omega
      rw [digits_zero, hjump]
      rfl

theorem EndOverruns.endCursor {v : CartesianProductView α} (h : EndOverruns v) :
    endCursor v = .error .fault := by
  have hempty : count v = 0 := countFrom_eq_zero.mpr (.inr h.other_empty)
  have hfirst := h.first_nonempty
  have hjump : jump v.view0.last v.view0.last v.view0.last = .error .fault :=
    if_neg (by omega)
  rw [CartesianProductView.endCursor, beginCursor_eq, cursorAt, if_pos hempty, exec_bind_ok,
    h.not_common, if_neg Bool.false_ne_true, endDigits, hjump]
  rfl

theorem it0_digits {v : CartesianProductView α} {rs : List (Component α)} {p : Nat}
    (hp : p ≤ countFrom v rs) (hpos : 0 < countFrom v rs) :
    (digits rs p).it0 = v.view0.last ↔ p = countFrom v rs := by
  induction rs generalizing p with
  | nil => exact Iff.rfl
  | cons r rs ih =>
    have hr : 0 < r.last := last_pos hpos
    have hdiv : p / r.last ≤ countFrom v rs := Nat.div_le_of_le_mul (Nat.mul_comm _ _ ▸ hp)
    rw [digits]
    dsimp only
    rw [ih hdiv (countFrom_pos hpos)]
    constructor
    · intro heq
      have hle : countFrom v rs * r.last ≤ p := heq ▸ Nat.div_mul_le_self p r.last
      exact Nat.le_antisymm hp hle
    · rintro rfl
      exact Nat.mul_div_cancel _ hr

theorem it0_cursorAt {v : CartesianProductView α} {p : Nat} (hp : p ≤ count v) :
    (cursorAt v p).it0 = v.view0.last ↔ p = count v := by
  rcases Nat.eq_zero_or_pos (count v) with hzero | hpos
  · rw [cursorAt, if_pos hzero]
    exact ⟨fun _ => by omega, fun _ => rfl⟩
  · rw [cursorAt_pos hpos]
    exact it0_digits hp hpos

theorem atEnd_eq {v : CartesianProductView α} (h : canBidi v = true → ¬ EndOverruns v) {p : Nat}
    (hp : p ≤ count v) : atEnd v (cursorAt v p) = .ok (decide (p = count v)) := by
  unfold atEnd
  split
  next hbidi =>
    rw [endCursor_eq (h hbidi), exec_bind_ok]
    congr 1
    rw [Bool.eq_iff_iff, equal_iff, decide_eq_true_eq]
    exact ⟨cursorAt_injective hp (Nat.le_refl _), fun heq => congrArg _ heq⟩
  next =>
    congr 1
    rw [Bool.eq_iff_iff, beq_iff_eq, decide_eq_true_eq]
    exact it0_cursorAt hp

/-! ## The product law -/

def ranges (v : CartesianProductView α) : List (List α) := v.components.map Component.elems

/-- `n` is a `difference_type`. -/
def Representable (n : Int) : Prop := diffMin ≤ n ∧ n ≤ diffMax

/-- The view lists the tuples of its components, each combination of positions once and in
lexicographic order, and can be walked, jumped over and measured as far as they can. -/
structure ProductLaw (v : CartesianProductView α) : Prop where
  forward : (loop v).Delivers (tuples v.ranges)
  complete : ∀ t, t ∈ tuples v.ranges ↔ List.Forall₂ (· ∈ ·) t v.ranges
  ascending : ∀ r, (∀ l ∈ v.ranges, l.Pairwise r) → (tuples v.ranges).Pairwise (List.Lex r)
  length_eq : (tuples v.ranges).length = count v
  begin_end : ∃ c, beginCursor v = .ok c ∧
    atEnd v c = .ok (v.components.any fun r => r.last == 0)
  end_eq : canBidi v = true → (loop v).nth (count v) = endCursor v
  prev_next : canBidi v = true → (loop v).PrevUndoesNext (prev v) (count v)
  jumps : canRandom v = true →
    (loop v).JumpsAreSteps (prev v) (advance v) (count v) Representable
  distances : canDistance v = true →
    (loop v).DistancesAreSteps (distanceTo v) (count v) fun _ => True
  equals : (loop v).EqualsArePositions equal (count v)

/-- The end is reached without passing it, and positions and their sums with a digit stay
in the difference type. -/
structure WithinBounds (v : CartesianProductView α) : Prop where
  end_reached : canBidi v = true → ¬ EndOverruns v
  jumps_fit : canRandom v = true → (count v : Int) < diffMax
  distances_fit : canDistance v = true → (count v : Int) ≤ diffMax

theorem ranges_eq (v : CartesianProductView α) :
    v.ranges = v.view0.elems :: (v.views.map Component.elems).reverse := by
  rw [ranges, components, List.map_cons, List.map_reverse]

theorem length_tuples (v : CartesianProductView α) : (tuples v.ranges).length = count v := by
  rw [ranges_eq]
  exact length_tuplesFrom v v.views

theorem any_empty (v : CartesianProductView α) :
    (v.components.any fun r => r.last == 0) = decide (count v = 0) := by
  rw [Bool.eq_iff_iff, decide_eq_true_eq, count, countFrom_eq_zero]
  simp [components]

theorem loop_numbers {v : CartesianProductView α} (h : canBidi v = true → ¬ EndOverruns v) :
    (loop v).Numbers (tuples v.ranges) (At v) := by
  refine ⟨⟨?_, ?_⟩, ?_, ?_⟩
  · exact ⟨_, beginCursor_eq v, Nat.zero_le _, rfl⟩
  · rintro p _ ⟨_, rfl⟩ hp
    rw [length_tuples] at hp
    have hpos : 0 < count v := Nat.zero_lt_of_lt hp
    refine ⟨_, ?_, hp, rfl⟩
    rw [cursorAt_pos hpos, cursorAt_pos hpos]
    exact nextFrom_digits hp
  · rintro p _ ⟨hp, rfl⟩
    rw [length_tuples]
    exact atEnd_eq h hp
  · rintro p _ t ⟨_, rfl⟩ ht
    have hlt := (List.getElem?_eq_some_iff.mp ht).1
    rw [length_tuples] at hlt
    rw [cursorAt_pos (Nat.zero_lt_of_lt hlt)]
    rw [ranges_eq] at ht
    exact readFrom_digits ht

theorem prev_cursorAt {v : CartesianProductView α} {p : Nat} (h : p < count v) :
    prev v (cursorAt v (p + 1)) = .ok (cursorAt v p) := by
  have hpos : 0 < count v := Nat.zero_lt_of_lt h
  rw [cursorAt_pos hpos, cursorAt_pos hpos]
  exact prevFrom_digits h

theorem advanceFrom_zero (v : CartesianProductView α) (rs : List (Component α)) (it0 : Nat) :
    advanceFrom v rs 0 ⟨it0, rs.map fun _ => 0⟩ = .ok ⟨it0, rs.map fun _ => 0⟩ := by
  cases rs with
  | nil => rfl
  | cons r rs => rw [List.map_cons, advanceFrom, if_pos rfl]

theorem advance_cursorAt {v : CartesianProductView α} (hfit : (count v : Int) < diffMax) {p q : Nat}
    (hp : p ≤ count v) (hq : q ≤ count v) :
    advance v ((q : Int) - p) (cursorAt v p) = .ok (cursorAt v q) := by
  rcases Nat.eq_zero_or_pos (count v) with hzero | hpos
  · have hpq : p = q := by omega
    rw [hpq, Int.sub_self, cursorAt, if_pos hzero]
    exact advanceFrom_zero v v.views _
  · rw [cursorAt_pos hpos, cursorAt_pos hpos]
    exact advanceFrom_digits hp hq hpos hfit

theorem distanceTo_cursorAt {v : CartesianProductView α} (hfit : (count v : Int) ≤ diffMax)
    {p q : Nat} (hp : p ≤ count v) (hq : q ≤ count v) :
    distanceTo v (cursorAt v p) (cursorAt v q) = .ok ((q : Int) - p) := by
  rcases Nat.eq_zero_or_pos (count v) with hzero | hpos
  · have hpq : p = q := by omega
    rw [hpq, Int.sub_self, cursorAt, if_pos hzero]
    exact distanceFrom_self v.views _
  · rw [cursorAt_pos hpos, cursorAt_pos hpos]
    exact distanceFrom_digits hp hq hpos hfit

theorem WithinBounds.law {v : CartesianProductView α} (h : WithinBounds v) : ProductLaw v := by
  have hnumbers := loop_numbers h.end_reached
  have hnumbering : (loop v).Numbering (count v) (At v) := by
    rw [← length_tuples]
    exact hnumbers.toNumbering
  have hprev : ∀ p c, At v (p + 1) c → p < count v → ∃ c', prev v c = .ok c' ∧ At v p c' := by
    rintro p _ ⟨_, rfl⟩ hp
    exact ⟨_, prev_cursorAt hp, Nat.le_of_lt hp, rfl⟩
  refine ⟨hnumbers.delivers, fun _ => mem_tuples, fun _ => tuples_pairwise_lex, length_tuples v,
    ⟨_, beginCursor_eq v, ?_⟩, ?_, ?_, ?_, ?_, ?_⟩
  · rw [atEnd_eq h.end_reached (Nat.zero_le _), any_empty]
    simp only [eq_comm]
  · intro hbidi
    obtain ⟨c, hrun, _, rfl⟩ := hnumbering.nth_eq (Nat.le_refl _)
    rw [hrun, endCursor_eq (h.end_reached hbidi)]
  · exact fun _ => hnumbering.prevUndoesNext At.unique hprev
  · intro hrandom
    apply hnumbering.jumpsAreSteps At.unique hprev
    rintro p q _ ⟨hp, rfl⟩ _ hq _
    exact ⟨_, advance_cursorAt (h.jumps_fit hrandom) hp hq, hq, rfl⟩
  · intro hdistance
    apply hnumbering.distancesAreSteps
    rintro p q _ _ ⟨hp, rfl⟩ ⟨hq, rfl⟩ _ _ _
    exact distanceTo_cursorAt (h.distances_fit hdistance) hp hq
  · apply hnumbering.equalsArePositions
    rintro p q _ _ ⟨hp, rfl⟩ ⟨hq, rfl⟩ _ _
    rw [equal_iff]
    exact ⟨cursorAt_injective hp hq, fun heq => congrArg _ heq⟩

/-- A jump of `diffMax` is asserted not to be made. -/
theorem advanceFrom_diffMax (v : CartesianProductView α) (rs : List (Component α)) :
    advanceFrom v rs diffMax ⟨0, rs.map fun _ => 0⟩ = .error .fault := by
  have hnonzero : ¬ diffMax = 0 := by decide
  cases rs with
  | nil =>
    rw [List.map_nil, advanceFrom, advanceFirst, if_neg hnonzero]
    split
    next => rfl
    next => rw [if_pos (by decide : ¬ diffMax < diffMax - (0 : Nat))]; rfl
  | cons r rs =>
    rw [List.map_cons, advanceFrom, if_neg hnonzero]
    split
    next => rfl
    next => rw [if_pos (by decide : ¬ diffMax < diffMax - (0 : Nat))]

theorem ProductLaw.withinBounds {v : CartesianProductView α} (law : ProductLaw v) :
    WithinBounds v := by
  refine ⟨?_, ?_, ?_⟩
  · intro hbidi hover
    obtain ⟨c, _, hend⟩ := law.begin_end
    rw [atEnd, if_pos hbidi, hover.endCursor] at hend
    cases hend
  · intro hrandom
    by_contra hlarge
    have hdiff : ((diffMax.toNat : Nat) : Int) - (0 : Nat) = diffMax := by decide
    have hle : diffMax.toNat ≤ count v := by omega
    have hpos : 0 < count v := by unfold diffMax at hlarge; omega
    have hjump := law.jumps hrandom 0 (Nat.zero_le _) diffMax.toNat hle
    rw [hdiff] at hjump
    obtain ⟨c, c', hbegin, _, hadvance, _⟩ := hjump ⟨by decide, Int.le_refl _⟩
    have hstart : (loop v).nth 0 = .ok (cursorAt v 0) := by
      rw [Loop.nth, loop, beginCursor_eq]
      rfl
    rw [hstart, cursorAt_pos hpos, digits_zero] at hbegin
    rw [← Except.ok.inj hbegin, advance, advanceFrom_diffMax] at hadvance
    cases hadvance
  · intro hdistance
    obtain ⟨c, c', _, _, hrun⟩ :=
      law.distances hdistance 0 (Nat.zero_le _) (count v) (Nat.le_refl _) trivial
    have hle := distanceFrom_le hrun
    omega

/-- `cartesian_product(repeat_n(7, 2), empty<int>)`: the end of `repeat_n` is the default
sentinel. -/
def emptySecond : CartesianProductView Nat where
  view0 := ⟨[7, 7], .ofCounted, by decide⟩
  views := [⟨[], .ofArray, by decide⟩]

end CartesianProductView

end EARanges.View
