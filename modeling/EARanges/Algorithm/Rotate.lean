import EARanges.Support.InPlace
import EARanges.Support.CyclicShift
import Mathlib.Data.List.Rotate

/-!
# `rotate`

algorithm/rotate.hpp for ranges whose sentinel is an iterator, with `rotate_left`,
`rotate_right`, `rotate_forward`, `gcd` and `rotate_gcd`, and `swap_ranges` from
algorithm/swap_ranges.hpp. Every function returns the range and the begin of the
returned subrange; its end is always `last`. The `while(true)` loops take fuel, which
the range's own length always covers.
-/
namespace EARanges.Algorithm
open EARanges.Support

variable {α : Type}

/-- `iterator_tag_of<I>` as far as `rotate_` tells tags apart. -/
inductive IteratorTag where
  | forward | bidirectional | randomAccess
  deriving DecidableEq, Repr

/-- What the algorithms ask of the iterator and value types: the tag,
`is_trivially_move_assignable_v<value_type>` and `sized_sentinel_for<S, I>`. -/
structure RangeTraits where
  tag : IteratorTag
  trivial : Bool
  sized : Bool
  deriving DecidableEq, Repr

def rotateLeft (l : List α) : Exec (List α × Nat) := do
  let tmp ← deref l 0
  let (l, lm1) ← move l (l.length - 1) 1 0
  let l ← assign l lm1 tmp
  .ok (l, lm1)

def rotateRight (l : List α) : Exec (List α × Nat) := do
  let lm1 := l.length - 1
  let tmp ← deref l lm1
  let (l, fp1) ← moveBackward l lm1 lm1 l.length
  let l ← assign l 0 tmp
  .ok (l, fp1)

/-- The first loop of `rotate_forward`; returns the range, `first` and `middle`. -/
def rotateForwardFirst (l : List α) : Nat → Nat → Nat → Nat → Exec (List α × Nat × Nat)
  | 0, _, _, _ => .error .fuel
  | fuel + 1, first, middle, i => do
    let l ← iterSwap l first i
    let first := first + 1
    let i := i + 1
    if i = l.length then .ok (l, first, middle)
    else rotateForwardFirst l fuel first (if first = middle then i else middle) i

/-- The second loop of `rotate_forward`. -/
def rotateForwardSecond (l : List α) : Nat → Nat → Nat → Nat → Exec (List α)
  | 0, _, _, _ => .error .fuel
  | fuel + 1, first, middle, j => do
    let l ← iterSwap l first j
    let first := first + 1
    let j := j + 1
    if j = l.length then
      if first = middle then .ok l
      else rotateForwardSecond l fuel first middle middle
    else rotateForwardSecond l fuel first (if first = middle then j else middle) j

def rotateForward (l : List α) (middle : Nat) : Exec (List α × Nat) := do
  let (l, first, middle) ← rotateForwardFirst l l.length 0 middle middle
  let r := first
  if first = middle then .ok (l, r)
  else
    let l ← rotateForwardSecond l l.length first middle middle
    .ok (l, r)

def gcd : Nat → Nat → Nat → Exec Nat
  | 0, _, _ => .error .fuel
  | fuel + 1, x, y =>
    if y = 0 then .error .fault
    else
      let t := x % y
      if t = 0 then .ok y else gcd fuel y t

/-- `swap_ranges(first, first + count, begin2)`. -/
def swapRanges (l : List α) : Nat → Nat → Nat → Exec (List α)
  | 0, _, _ => .ok l
  | count + 1, begin1, begin2 => do
    let l ← iterSwap l begin1 begin2
    swapRanges l count (begin1 + 1) (begin2 + 1)

/-- The `do` loop of `rotate_gcd` on the cycle of `p`; returns the range and `p1`. -/
def rotateCycle (l : List α) (m1 p : Nat) : Nat → Nat → Nat → Exec (List α × Nat)
  | 0, _, _ => .error .fuel
  | fuel + 1, p1, p2 => do
    let x ← deref l p2
    let l ← assign l p1 x
    let p1 := p2
    let d := l.length - p2
    let p2 := if m1 < d then p2 + m1 else m1 - d
    if p2 = p then .ok (l, p1) else rotateCycle l m1 p fuel p1 p2

/-- The `for` loop of `rotate_gcd`, from `first + p` down to `first`. -/
def rotateCycles (l : List α) (m1 : Nat) : Nat → Exec (List α)
  | 0 => .ok l
  | p + 1 => do
    let t ← deref l p
    let (l, p1) ← rotateCycle l m1 p l.length p (p + m1)
    let l ← assign l p1 t
    rotateCycles l m1 p

def rotateGcd (l : List α) (middle : Nat) : Exec (List α × Nat) := do
  let m1 := middle
  let m2 := l.length - middle
  if m1 = m2 then
    let l ← swapRanges l m1 0 middle
    .ok (l, middle)
  else
    let g ← gcd (m2 + 1) m1 m2
    let l ← rotateCycles l m1 g
    .ok (l, m2)

def rotate_ (t : RangeTraits) (l : List α) (middle : Nat) : Exec (List α × Nat) :=
  match t.tag with
  | .forward =>
    if t.trivial ∧ 1 = middle then rotateLeft l
    else rotateForward l middle
  | .bidirectional =>
    if t.trivial ∧ 1 = middle then rotateLeft l
    else if t.trivial ∧ middle + 1 = l.length then rotateRight l
    else rotateForward l middle
  | .randomAccess =>
    if t.trivial ∧ 1 = middle then rotateLeft l
    else if t.trivial ∧ middle + 1 = l.length then rotateRight l
    else if t.trivial then rotateGcd l middle
    else rotateForward l middle

def rotate (t : RangeTraits) (l : List α) (middle : Nat) : Exec (List α × Nat) :=
  if 0 = middle then .ok (l, l.length)
  else if middle = l.length then .ok (l, 0)
  else rotate_ t l middle

/-! ## Left and right -/

theorem rotateLeft_spec (x : α) (b : List α) :
    rotateLeft (x :: b) = .ok (b ++ [x], b.length) := by
  have hmove := move_left [] x b []
  simp only [List.nil_append, List.append_nil, List.length_nil, Nat.zero_add] at hmove
  have hassign := assign_append b (b.getLastD x) x []
  simp only [rotateLeft, deref, List.getElem?_cons_zero, List.length_cons, Nat.add_sub_cancel,
    exec_bind_ok, hmove, hassign]

theorem rotateRight_spec (a : List α) (x : α) :
    rotateRight (a ++ [x]) = .ok (x :: a, 1) := by
  have hderef := deref_append a x []
  have hmove := moveBackward_right [] a x []
  simp only [List.nil_append, List.append_nil, List.length_nil, Nat.zero_add] at hmove
  simp only [rotateRight, List.length_append, List.length_singleton, Nat.add_sub_cancel, hderef,
    exec_bind_ok, hmove]
  rfl

/-! ## The forward variant

In both loops the range is `d ++ x ++ y ++ z` with `first` at `x`, `middle` at `y` and
the running iterator at `z`, and it is on its way to `d ++ z ++ y ++ x`. -/

theorem iterSwap_blocks (d : List α) (a : α) (x y : List α) (b : α) (z : List α) :
    iterSwap (d ++ (a :: x) ++ y ++ (b :: z)) d.length (d.length + (x.length + 1) + y.length) =
      .ok (d ++ [b] ++ x ++ (y ++ [a]) ++ z) := by
  have hswap := iterSwap_append d a (x ++ y) b z
  have hpos : d.length + (x.length + 1) + y.length = d.length + 1 + (x ++ y).length := by
    simp only [List.length_append]
    omega
  rw [hpos]
  simpa using hswap

theorem length_swapped (d : List α) (a : α) (x y : List α) (b : α) (z : List α) :
    (d ++ [b] ++ x ++ (y ++ [a]) ++ z).length =
      d.length + (x.length + 1) + y.length + 1 + z.length := by
  simp only [List.length_append, List.length_singleton]
  omega

/-- After a swap that does not reach the end, the blocks are named anew. If the first one
is used up, what was swapped back becomes the next one. -/
theorem forward_next (d : List α) (a : α) (x y : List α) (b : α) (z : List α) :
    ∃ x' y', x' ≠ [] ∧ y' ++ x' = y ++ (a :: x) ∧
      d ++ [b] ++ x ++ (y ++ [a]) ++ z = d ++ [b] ++ x' ++ y' ++ z ∧
      (if d.length + 1 = d.length + (x.length + 1) then d.length + (x.length + 1) + y.length + 1
        else d.length + (x.length + 1)) = (d ++ [b]).length + x'.length ∧
      d.length + (x.length + 1) + y.length + 1 = (d ++ [b]).length + x'.length + y'.length := by
  by_cases hempty : x = []
  · subst hempty
    refine ⟨y ++ [a], [], by simp, by simp, by simp, ?_, ?_⟩
    · rw [List.length_nil, if_pos (by omega), List.length_append, List.length_append,
        List.length_singleton, List.length_singleton]
      omega
    · simp only [List.length_append, List.length_singleton, List.length_nil]
      omega
  · have hxpos := List.length_pos_of_ne_nil hempty
    refine ⟨x, y ++ [a], hempty, by simp, rfl, ?_, ?_⟩
    · rw [if_neg (by omega), List.length_append, List.length_singleton]
      omega
    · simp only [List.length_append, List.length_singleton]
      omega

theorem rotateForwardFirst_spec (fuel : Nat) (d x y z : List α) (hx : x ≠ []) (hz : z ≠ [])
    (hfuel : z.length ≤ fuel) :
    ∃ x' y', y' ≠ [] ∧ y' ++ x' = y ++ x ∧
      rotateForwardFirst (d ++ x ++ y ++ z) fuel d.length (d.length + x.length)
        (d.length + x.length + y.length) =
      .ok (d ++ z ++ x' ++ y', d.length + z.length, d.length + z.length + x'.length) := by
  induction fuel generalizing d x y z with
  | zero => exact absurd (List.eq_nil_of_length_eq_zero (Nat.le_zero.mp hfuel)) hz
  | succ fuel ih =>
    obtain ⟨a, x, rfl⟩ := List.exists_cons_of_ne_nil hx
    obtain ⟨b, z, rfl⟩ := List.exists_cons_of_ne_nil hz
    rw [rotateForwardFirst, List.length_cons, iterSwap_blocks, exec_bind_ok]
    dsimp only
    rw [length_swapped]
    by_cases hend : z = []
    · subst hend
      refine ⟨x, y ++ [a], by simp, by simp, ?_⟩
      rw [if_pos (by simp)]
      simp only [List.append_nil, List.length_cons, List.length_nil, Nat.zero_add,
        Except.ok.injEq, Prod.mk.injEq, true_and]
      omega
    · have hzpos := List.length_pos_of_ne_nil hend
      rw [List.length_cons] at hfuel
      obtain ⟨x₁, y₁, hx₁, happ₁, hlist, hmid, hi⟩ := forward_next d a x y b z
      obtain ⟨x', y', hy', happ, hrun⟩ := ih (d ++ [b]) x₁ y₁ z hx₁ hend (by omega)
      have hfirst : d.length + 1 = (d ++ [b]).length := by
        rw [List.length_append, List.length_singleton]
      refine ⟨x', y', hy', happ.trans happ₁, ?_⟩
      rw [if_neg (by omega), hlist, hmid, hi, hfirst, hrun]
      simp only [← hfirst, List.append_assoc, List.singleton_append, List.length_cons,
        Except.ok.injEq, Prod.mk.injEq, true_and]
      omega

theorem rotateForwardSecond_spec (fuel : Nat) (d x y z : List α) (hx : x ≠ []) (hz : z ≠ [])
    (hfuel : x.length + y.length + z.length ≤ fuel) :
    rotateForwardSecond (d ++ x ++ y ++ z) fuel d.length (d.length + x.length)
      (d.length + x.length + y.length) = .ok (d ++ z ++ y ++ x) := by
  induction fuel generalizing d x y z with
  | zero =>
    have := List.length_pos_of_ne_nil hx
    omega
  | succ fuel ih =>
    obtain ⟨a, x, rfl⟩ := List.exists_cons_of_ne_nil hx
    obtain ⟨b, z, rfl⟩ := List.exists_cons_of_ne_nil hz
    rw [rotateForwardSecond, List.length_cons, iterSwap_blocks, exec_bind_ok]
    dsimp only
    rw [length_swapped]
    rw [List.length_cons, List.length_cons] at hfuel
    by_cases hend : z = []
    · subst hend
      rw [if_pos (by simp)]
      by_cases hempty : x = []
      · subst hempty
        rw [if_pos (by simp)]
        simp
      · -- the last block is used up: what was swapped back takes its place
        have hxpos := List.length_pos_of_ne_nil hempty
        rw [if_neg (by omega)]
        have hrun := ih (d ++ [b]) x [] (y ++ [a]) hempty (by simp)
          (by simp only [List.length_append, List.length_nil, List.length_singleton]; omega)
        simp only [List.append_nil, List.length_append, List.length_singleton, List.length_nil,
          Nat.add_zero] at hrun ⊢
        have hmid : d.length + (x.length + 1) = d.length + 1 + x.length := by omega
        rw [hmid, hrun]
        simp
    · have hzpos := List.length_pos_of_ne_nil hend
      obtain ⟨x₁, y₁, hx₁, happ₁, hlist, hmid, hi⟩ := forward_next d a x y b z
      have hlength := congrArg List.length happ₁
      rw [List.length_append, List.length_append, List.length_cons] at hlength
      have hrun := ih (d ++ [b]) x₁ y₁ z hx₁ hend (by omega)
      have hfirst : d.length + 1 = (d ++ [b]).length := by
        rw [List.length_append, List.length_singleton]
      rw [if_neg (by omega), hlist, hmid, hi, hfirst, hrun]
      have hrest : d ++ [b] ++ z ++ y₁ ++ x₁ = d ++ [b] ++ z ++ (y₁ ++ x₁) :=
        List.append_assoc _ _ _
      rw [hrest, happ₁]
      simp

theorem rotateForward_spec {a b : List α} (ha : a ≠ []) (hb : b ≠ []) :
    rotateForward (a ++ b) a.length = .ok (b ++ a, b.length) := by
  obtain ⟨x', y', hy', happ, hrun⟩ := rotateForwardFirst_spec (a ++ b).length [] a [] b ha hb
    (by simp)
  simp only [List.append_nil, List.nil_append, List.length_nil, Nat.zero_add, Nat.add_zero]
    at hrun happ
  rw [rotateForward, hrun, exec_bind_ok]
  dsimp only
  by_cases hempty : x' = []
  · subst hempty
    rw [if_pos (by simp), ← happ]
    simp
  · have hpos := List.length_pos_of_ne_nil hempty
    rw [if_neg (by omega)]
    have hsecond := rotateForwardSecond_spec (b ++ x' ++ y').length b x' [] y' hempty hy'
      (by simp only [List.length_append, List.length_nil]; omega)
    simp only [List.append_nil, List.length_nil, Nat.add_zero] at hsecond
    rw [hsecond, exec_bind_ok, List.append_assoc, happ]

/-! ## Equal halves -/

theorem swapRanges_spec (d a m b : List α) (h : a.length = b.length) (q : List α) :
    swapRanges (d ++ a ++ m ++ b ++ q) a.length d.length (d.length + a.length + m.length) =
      .ok (d ++ b ++ m ++ a ++ q) := by
  induction a generalizing d m b with
  | nil =>
    cases b with
    | nil => rfl
    | cons _ _ => simp at h
  | cons x a ih =>
    cases b with
    | nil => simp at h
    | cons y b =>
      simp only [List.length_cons, Nat.add_right_cancel_iff] at h
      have hswap := iterSwap_blocks d x a m y (b ++ q)
      have hrest := ih (d ++ [y]) (m ++ [x]) b h
      have hpos : d.length + (a.length + 1) + m.length + 1 =
          (d ++ [y]).length + a.length + (m ++ [x]).length := by
        simp only [List.length_append, List.length_singleton]
        omega
      have hlen : (d ++ [y]).length = d.length + 1 := by simp
      rw [← List.cons_append, ← List.append_assoc] at hswap
      rw [List.length_cons, swapRanges, hswap, exec_bind_ok, hpos, ← hlen]
      have hleft : d ++ [y] ++ a ++ (m ++ [x]) ++ (b ++ q) =
          d ++ [y] ++ a ++ (m ++ [x]) ++ b ++ q := by
        simp only [List.append_assoc]
      rw [hleft, hrest]
      simp

/-! ## Cycles -/

theorem gcd_spec (fuel x : Nat) {y : Nat} (hy : 0 < y) (hfuel : y ≤ fuel) :
    gcd fuel x y = .ok (Nat.gcd x y) := by
  induction fuel generalizing x y with
  | zero => omega
  | succ fuel ih =>
    rw [gcd, if_neg (by omega)]
    have hrec : Nat.gcd x y = Nat.gcd y (x % y) := by
      rw [Nat.gcd_comm, Nat.gcd_rec, Nat.gcd_comm]
    by_cases hzero : x % y = 0
    · simp only [hzero, if_true]
      rw [hrec, hzero, Nat.gcd_zero_right]
    · have hlt := Nat.mod_lt x hy
      simp only [hzero, if_false]
      rw [ih y (by omega) (by omega), hrec]

/-- Where the next element comes from: `m1` further on, around the end. -/
theorem shift_index {n m1 q : Nat} (hq : q < n) (hm : m1 < n) :
    (if m1 < n - q then q + m1 else m1 - (n - q)) = (q + m1) % n := by
  split
  next h => rw [Nat.mod_eq_of_lt (by omega)]
  next h =>
    rw [Nat.mod_eq_sub_mod (by omega), Nat.mod_eq_of_lt (by omega)]
    omega

/-- After `k` steps on the cycle of `p`: its first `k` places hold their successors,
all other places what they held. -/
structure CycleStep (l : List α) (m1 p k : Nat) (l' : List α) : Prop where
  length_eq : l'.length = l.length
  moved : ∀ j < k, l'[cycleAt l.length m1 p j]? = l[cycleAt l.length m1 p (j + 1)]?
  kept : ∀ q, (∀ j < k, q ≠ cycleAt l.length m1 p j) → l'[q]? = l[q]?

theorem CycleStep.zero (l : List α) (m1 p : Nat) : CycleStep l m1 p 0 l :=
  ⟨rfl, fun _ hj => absurd hj (Nat.not_lt_zero _), fun _ _ => rfl⟩

theorem CycleStep.succ {l l' : List α} {m1 p k : Nat} (h : CycleStep l m1 p k l')
    (hn : 0 < l.length) (hk : k < cyclePeriod l.length m1) {x : α}
    (hx : l[cycleAt l.length m1 p (k + 1)]? = some x) :
    CycleStep l m1 p (k + 1) (l'.set (cycleAt l.length m1 p k) x) := by
  refine ⟨by rw [List.length_set, h.length_eq], fun j hj => ?_, fun q hq => ?_⟩
  · by_cases hjk : j = k
    · subst hjk
      rw [List.getElem?_set_self (by rw [h.length_eq]; exact cycleAt_lt hn _ _ _), hx]
    · have hne : cycleAt l.length m1 p k ≠ cycleAt l.length m1 p j := fun heq =>
        hjk (cycleAt_inj hn hk (by omega) heq).symm
      rw [List.getElem?_set_ne hne]
      exact h.moved j (by omega)
  · rw [List.getElem?_set_ne (hq k (Nat.lt_succ_self k)).symm]
    exact h.kept q fun j hj => hq j (by omega)

/-- The `do` loop stops one step short of closing the cycle. -/
theorem rotateCycle_spec {l : List α} {m1 p : Nat} (hp : p < l.length) (hm : m1 < l.length)
    (fuel k : Nat) {lk : List α} (hstep : CycleStep l m1 p k lk)
    (hk : k + 1 < cyclePeriod l.length m1) (hfuel : cyclePeriod l.length m1 ≤ k + fuel + 1) :
    ∃ l', rotateCycle lk m1 p fuel (cycleAt l.length m1 p k) (cycleAt l.length m1 p (k + 1)) =
        .ok (l', cycleAt l.length m1 p (cyclePeriod l.length m1 - 1)) ∧
      CycleStep l m1 p (cyclePeriod l.length m1 - 1) l' := by
  have hn : 0 < l.length := by omega
  induction fuel generalizing k lk with
  | zero => omega
  | succ fuel ih =>
    have hpos : cycleAt l.length m1 p (k + 1) < l.length := cycleAt_lt hn _ _ _
    -- the successor has not been overwritten yet
    have hkept := hstep.kept (cycleAt l.length m1 p (k + 1)) fun j hj heq => by
      have := cycleAt_inj hn hk (by omega) heq
      omega
    have hread : deref lk (cycleAt l.length m1 p (k + 1)) =
        .ok l[cycleAt l.length m1 p (k + 1)] := by
      rw [deref, hkept, List.getElem?_eq_getElem hpos]
    have hcur : cycleAt l.length m1 p k < lk.length := by
      rw [hstep.length_eq]
      exact cycleAt_lt hn _ _ _
    have hassign := assign_eq hcur l[cycleAt l.length m1 p (k + 1)]
    have hnext := hstep.succ hn (by omega) (List.getElem?_eq_getElem hpos)
    rw [rotateCycle, hread, exec_bind_ok, hassign, exec_bind_ok]
    simp only [hnext.length_eq, shift_index hpos hm, ← cycleAt_succ]
    by_cases hclosed : k + 2 = cyclePeriod l.length m1
    · have hback : cycleAt l.length m1 p (k + 2) = p := by
        rw [hclosed]
        exact cycleAt_period hn hp
      have hlast : cyclePeriod l.length m1 - 1 = k + 1 := by omega
      rw [hback, if_pos rfl, hlast]
      exact ⟨_, rfl, hnext⟩
    · have hopen : cycleAt l.length m1 p (k + 2) ≠ p := fun heq => by
        have hzero : cycleAt l.length m1 p (k + 2) = cycleAt l.length m1 p 0 := by
          rw [heq, cycleAt_zero hp]
        have := cycleAt_inj hn (by omega) (by omega) hzero
        omega
      rw [if_neg hopen]
      exact ih (k + 1) hnext (by omega) (by omega)

/-- The `do` loop and the assignment after it rotate the cycle of `p`. -/
theorem closeCycle_spec {l : List α} {m1 p : Nat} (hm : m1 < l.length)
    (hperiod : 1 < cyclePeriod l.length m1) (hsucc : p + m1 < l.length) :
    ∃ l₁ l₂ p1, rotateCycle l m1 p l.length p (p + m1) = .ok (l₁, p1) ∧
      assign l₁ p1 l[p] = .ok l₂ ∧ CycleStep l m1 p (cyclePeriod l.length m1) l₂ := by
  have hn : 0 < l.length := by omega
  have hp : p < l.length := by omega
  have hcount : cyclePeriod l.length m1 - 1 + 1 = cyclePeriod l.length m1 := by omega
  have hone : cycleAt l.length m1 p 1 = p + m1 := by
    rw [cycleAt, Nat.one_mul, Nat.mod_eq_of_lt hsucc]
  have hfuel : cyclePeriod l.length m1 ≤ 0 + l.length + 1 := by
    have hle := Nat.div_le_self l.length (Nat.gcd l.length m1)
    rw [cyclePeriod]
    omega
  obtain ⟨l₁, hrun, hstep⟩ := rotateCycle_spec hp hm l.length 0 (.zero l m1 p) hperiod hfuel
  rw [cycleAt_zero hp, hone] at hrun
  have hcur : cycleAt l.length m1 p (cyclePeriod l.length m1 - 1) < l₁.length := by
    rw [hstep.length_eq]
    exact cycleAt_lt hn _ _ _
  have hclosed : l[cycleAt l.length m1 p (cyclePeriod l.length m1 - 1 + 1)]? = some l[p] := by
    rw [hcount, cycleAt_period hn hp, List.getElem?_eq_getElem hp]
  have hcycle := hstep.succ hn (by omega) hclosed
  rw [hcount] at hcycle
  exact ⟨l₁, _, _, hrun, assign_eq hcur l[p], hcycle⟩

/-- The residues from `p` up have been rotated. -/
def Rotated (l : List α) (m1 g p : Nat) (l' : List α) : Prop :=
  l'.length = l.length ∧ ∀ q < l.length,
    l'[q]? = if p ≤ q % g then l[(q + m1) % l.length]? else l[q]?

/-- The cycle of `p` is the residue class of `p`. -/
theorem Rotated.cycle {l lp l' : List α} {m1 p : Nat} (hn : 0 < l.length)
    (hp : p < Nat.gcd l.length m1) (hrot : Rotated l m1 (Nat.gcd l.length m1) (p + 1) lp)
    (hcycle : CycleStep lp m1 p (cyclePeriod lp.length m1) l') :
    Rotated l m1 (Nat.gcd l.length m1) p l' := by
  obtain ⟨hlen, hval⟩ := hrot
  refine ⟨hcycle.length_eq.trans hlen, fun q hq => ?_⟩
  have hpmod : p % Nat.gcd l.length m1 = p := Nat.mod_eq_of_lt hp
  have hresidue (j : Nat) : cycleAt lp.length m1 p j % Nat.gcd l.length m1 = p := by
    rw [hlen, cycleAt_mod_gcd, hpmod]
  by_cases hq' : q % Nat.gcd l.length m1 = p
  · obtain ⟨j, hj, hjq⟩ := exists_cycleAt (m := m1) (p := p) hn hq (by rw [hq', hpmod])
    rw [← hlen] at hj hjq
    have hmoved := hcycle.moved j hj
    have hnext := hresidue (j + 1)
    rw [cycleAt_succ, hjq, hlen] at hnext
    rw [cycleAt_succ, hjq, hlen, hval _ (Nat.mod_lt _ hn), if_neg (by omega)] at hmoved
    rw [hmoved, if_pos (by omega)]
  · have hkept := hcycle.kept q fun j _ heq => hq' (by rw [heq, hresidue])
    rw [hkept, hval q hq]
    split <;> split <;> first | rfl | omega

theorem rotateCycles_spec {l : List α} {m1 : Nat} (hm0 : 0 < m1) (hm : m1 < l.length) (p : Nat)
    (hp : p ≤ Nat.gcd l.length m1) {lp : List α}
    (hrot : Rotated l m1 (Nat.gcd l.length m1) p lp) :
    ∃ l', rotateCycles lp m1 p = .ok l' ∧ Rotated l m1 (Nat.gcd l.length m1) 0 l' := by
  have hn : 0 < l.length := by omega
  have hgm : Nat.gcd l.length m1 ≤ m1 := Nat.gcd_le_right _ hm0
  have hperiod : 1 < cyclePeriod l.length m1 := by
    have hdvd := Nat.gcd_dvd_left l.length m1
    have hg := Nat.gcd_pos_of_pos_left m1 hn
    rw [cyclePeriod, Nat.lt_div_iff_mul_lt' hdvd]
    omega
  induction p generalizing lp with
  | zero => exact ⟨lp, rfl, hrot⟩
  | succ p ih =>
    have hlen := hrot.1
    have hpn : p < lp.length := by omega
    have hsucc : p + m1 < lp.length := by
      -- `p < gcd`, which divides the rest `l.length - m1`
      have hdvd : Nat.gcd l.length m1 ∣ l.length - m1 :=
        Nat.dvd_sub (Nat.gcd_dvd_left _ _) (Nat.gcd_dvd_right _ _)
      have := Nat.le_of_dvd (by omega) hdvd
      omega
    obtain ⟨l₁, l₂, p1, hrun, hassign, hcycle⟩ :=
      closeCycle_spec (by omega) (by rw [hlen]; exact hperiod) hsucc
    rw [rotateCycles, deref_eq hpn, exec_bind_ok, hrun, exec_bind_ok]
    dsimp only
    rw [hassign, exec_bind_ok]
    exact ih (by omega) (hrot.cycle hn hp hcycle)

theorem rotateGcd_spec {a b : List α} (ha : a ≠ []) (hb : b ≠ []) :
    rotateGcd (a ++ b) a.length = .ok (b ++ a, b.length) := by
  have hapos := List.length_pos_of_ne_nil ha
  have hbpos := List.length_pos_of_ne_nil hb
  have hlen : (a ++ b).length = a.length + b.length := List.length_append
  rw [rotateGcd]
  simp only [hlen, Nat.add_sub_cancel_left]
  by_cases heq : a.length = b.length
  · have hswap := swapRanges_spec [] a [] b heq []
    simp only [List.append_nil, List.nil_append, List.length_nil, Nat.zero_add, Nat.add_zero]
      at hswap
    rw [if_pos heq, hswap, exec_bind_ok, heq]
  · have hg : Nat.gcd a.length b.length = Nat.gcd (a ++ b).length a.length := by
      rw [hlen, Nat.gcd_comm, Nat.gcd_self_add_left]
    have hm : a.length < (a ++ b).length := by omega
    have hstart : Rotated (a ++ b) a.length (Nat.gcd (a ++ b).length a.length)
        (Nat.gcd (a ++ b).length a.length) (a ++ b) := by
      refine ⟨rfl, fun q _ => ?_⟩
      have hgpos := Nat.gcd_pos_of_pos_right (a ++ b).length hapos
      rw [if_neg (Nat.not_le.mpr (Nat.mod_lt q hgpos))]
    obtain ⟨l', hrun, hlen', hval⟩ := rotateCycles_spec hapos hm _ (Nat.le_refl _) hstart
    have hrotate : l' = b ++ a := by
      rw [← List.rotate_append_length_eq]
      apply List.ext_getElem?
      intro q
      by_cases hq : q < (a ++ b).length
      · rw [hval q hq, if_pos (Nat.zero_le _), List.getElem?_rotate hq]
      · rw [List.getElem?_eq_none (by omega), List.getElem?_eq_none]
        rw [List.length_rotate]
        omega
    rw [if_neg heq, gcd_spec _ _ hbpos (Nat.le_succ _), exec_bind_ok, hg, hrun, exec_bind_ok,
      hrotate]

/-! ## `rotate` -/

theorem rotate_variant_spec (t : RangeTraits) {a b : List α} (ha : a ≠ []) (hb : b ≠ []) :
    rotate_ t (a ++ b) a.length = .ok (b ++ a, b.length) := by
  have hleft (h : 1 = a.length) : rotateLeft (a ++ b) = .ok (b ++ a, b.length) := by
    obtain ⟨x, rfl⟩ := List.length_eq_one_iff.mp h.symm
    exact rotateLeft_spec x b
  have hright (h : a.length + 1 = (a ++ b).length) :
      rotateRight (a ++ b) = .ok (b ++ a, b.length) := by
    have hb1 : b.length = 1 := by
      rw [List.length_append] at h
      omega
    obtain ⟨x, rfl⟩ := List.length_eq_one_iff.mp hb1
    exact rotateRight_spec a x
  unfold rotate_
  cases t.tag with
  | forward =>
    dsimp only
    split
    next h => exact hleft h.2
    next => exact rotateForward_spec ha hb
  | bidirectional =>
    dsimp only
    split
    next h => exact hleft h.2
    next =>
      split
      next h => exact hright h.2
      next => exact rotateForward_spec ha hb
  | randomAccess =>
    dsimp only
    split
    next h => exact hleft h.2
    next =>
      split
      next h => exact hright h.2
      next =>
        split
        next => exact rotateGcd_spec ha hb
        next => exact rotateForward_spec ha hb

/-- Whatever the variant, the two parts change places. -/
theorem rotate_spec (t : RangeTraits) (a b : List α) :
    rotate t (a ++ b) a.length = .ok (b ++ a, b.length) := by
  rw [rotate]
  cases a with
  | nil => simp
  | cons x a =>
    cases b with
    | nil => simp
    | cons y b =>
      rw [if_neg (by simp), if_neg (by simp)]
      exact rotate_variant_spec t (by simp) (by simp)

/-- The second part followed by the first, and the place where the first one begins. -/
def rotated (l : List α) (middle : Nat) : List α × Nat :=
  (l.drop middle ++ l.take middle, l.length - middle)

theorem rotated_append (a b : List α) : rotated (a ++ b) a.length = (b ++ a, b.length) := by
  rw [rotated, List.drop_left, List.take_left, List.length_append, Nat.add_sub_cancel_left]

/-- Where the old first element is, unless nothing is in front of `middle`. -/
theorem getElem?_rotated {l : List α} {middle : Nat} (h : 0 < middle) :
    (rotated l middle).1[(rotated l middle).2]? = l[0]? := by
  have hlen : (l.drop middle).length = l.length - middle := List.length_drop
  dsimp only [rotated]
  rw [← hlen, List.getElem?_append_right (Nat.le_refl _), Nat.sub_self,
    List.getElem?_take_of_lt h]

/-- `rotate` and its variants realise one permutation. What is returned is `last` when
`middle` is `first`, and else the place of the old first element. -/
theorem rotate_correct (t : RangeTraits) (l : List α) {middle : Nat} (hle : middle ≤ l.length) :
    rotate t l middle = .ok (rotated l middle) ∧
    (middle = 0 → rotated l middle = (l, l.length)) ∧
    (0 < middle → (rotated l middle).1[(rotated l middle).2]? = l[0]?) ∧
    (0 < middle → middle < l.length →
      rotate_ t l middle = .ok (rotated l middle) ∧
      rotateForward l middle = .ok (rotated l middle) ∧
      rotateGcd l middle = .ok (rotated l middle) ∧
      (1 = middle → rotateLeft l = .ok (rotated l middle)) ∧
      (middle + 1 = l.length → rotateRight l = .ok (rotated l middle))) := by
  refine ⟨?_, ?_, fun h => getElem?_rotated h, ?_⟩
  · obtain ⟨a, b, rfl, rfl⟩ := exists_cut hle
    rw [rotate_spec, rotated_append]
  · rintro rfl
    rw [rotated, List.drop_zero, List.take_zero, List.append_nil, Nat.sub_zero]
  · intro hpos hlt
    obtain ⟨a, b, rfl, rfl⟩ := exists_cut hle
    rw [List.length_append] at hlt
    have ha : a ≠ [] := List.ne_nil_of_length_pos hpos
    have hb : b ≠ [] := List.ne_nil_of_length_pos (by omega)
    rw [rotated_append]
    refine ⟨rotate_variant_spec t ha hb, rotateForward_spec ha hb, rotateGcd_spec ha hb, ?_, ?_⟩
    · intro hone
      obtain ⟨x, rfl⟩ := List.length_eq_one_iff.mp hone.symm
      exact rotateLeft_spec x b
    · intro hlast
      rw [List.length_append] at hlast
      obtain ⟨x, rfl⟩ := List.length_eq_one_iff.mp (show b.length = 1 by omega)
      exact rotateRight_spec a x

theorem rotate_correct_five :
    rotate ⟨.randomAccess, true, true⟩ [1, 2, 3, 4, 5] 2 = .ok (rotated [1, 2, 3, 4, 5] 2) :=
  (rotate_correct ⟨.randomAccess, true, true⟩ [1, 2, 3, 4, 5] (by decide)).1

/-- With `middle` at `first` nothing moves and `last` is returned. -/
theorem rotate_at_first :
    ¬ ∃ r it, rotate ⟨.forward, false, false⟩ [7] 0 = .ok (r, it) ∧ r[it]? = [7][0]? := by
  rintro ⟨r, it, hrun, hit⟩
  obtain ⟨rfl, rfl⟩ := Prod.mk.inj (Except.ok.inj hrun)
  exact absurd hit (by decide)

end EARanges.Algorithm
