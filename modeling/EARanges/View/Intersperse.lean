import EARanges.Iterator.DifferenceT
import EARanges.Iterator.RangeTraits
import EARanges.Support.InPlace
import EARanges.Support.Numbered

/-!
# `intersperse_view`

view/intersperse.hpp. A cursor is an iterator of the base and a flag, set before an element and
clear before a separator, whose iterator is the one behind it. Begin and end have different
flags unless the base is empty.
-/
namespace EARanges.View
open EARanges.Support EARanges.Iterator

/-- The distances of the base fit the difference type. -/
structure IntersperseView (α : Type) where
  base : List α
  val : α
  traits : RangeTraits
  length_le : (base.length : Int) ≤ diffMax

namespace IntersperseView

variable {α : Type}

def size (v : IntersperseView α) : Nat :=
  let n := v.base.length
  if n ≠ 0 then unsigned (unsigned (n * 2) - 1) else 0

/-! `cursor_adaptor`; the flag is `toggle_`. -/

def begin_ (v : IntersperseView α) : Nat × Bool := (0, decide (0 ≠ v.base.length))

/-- The end where it is a cursor. -/
def end_ (v : IntersperseView α) : Nat × Bool := (v.base.length, false)

def read (v : IntersperseView α) (s : Nat × Bool) : Exec α :=
  let (it, toggle) := s
  if toggle then deref v.base it else .ok v.val

def equal (s other : Nat × Bool) : Bool := s.1 == other.1 && s.2 == other.2

def next (v : IntersperseView α) (s : Nat × Bool) : Exec (Nat × Bool) :=
  let (it, toggle) := s
  if toggle then do
    let it ← incr v.base it
    .ok (it, !toggle)
  else .ok (it, !toggle)

def prev (s : Nat × Bool) : Exec (Nat × Bool) :=
  let (it, toggle) := s
  let toggle := !toggle
  if toggle then do
    let it ← stepBack it
    .ok (it, toggle)
  else .ok (it, toggle)

def distanceTo (s other : Nat × Bool) : Exec Int := do
  let delta ← signed ((other.1 : Int) - s.1)
  let twice ← signed (delta * 2)
  signed (twice + ((other.2.toNat : Int) - s.2.toNat))

/-- The number of base steps in `n` steps. -/
def advanceCount (n : Int) (toggle : Bool) : Exec Int :=
  if 0 ≤ n then do
    let sum ← signed (n + toggle.toNat)
    .ok (sum.tdiv 2)
  else do
    let difference ← signed (n - (!toggle).toNat)
    .ok (difference.tdiv 2)

def advance (v : IntersperseView α) (n : Int) (s : Nat × Bool) : Exec (Nat × Bool) := do
  let (it, toggle) := s
  let count ← advanceCount n toggle
  let it ← advanceBy v.traits v.base.length it count
  .ok (it, if n.tmod 2 ≠ 0 then !toggle else toggle)

/-- The end is a cursor for a common range that is not single-pass, else a sentinel that looks
at the iterator. -/
def loop (v : IntersperseView α) : Loop (Nat × Bool) α where
  start := .ok v.begin_
  atEnd s := .ok (if v.traits.common && v.traits.forward then equal s v.end_
    else s.1 == v.base.length)
  read := v.read
  next := v.next

/-! ## Positions -/

def count (v : IntersperseView α) : Nat := 2 * v.base.length - 1

/-- The cursor `i` steps from the first. -/
inductive At (v : IntersperseView α) : Nat → Nat × Bool → Prop where
  | empty : v.base.length = 0 → At v 0 (0, false)
  | element {i k : Nat} : i = 2 * k → k < v.base.length → At v i (k, true)
  | separator {i k : Nat} : i = 2 * k + 1 → k < v.base.length → At v i (k + 1, false)

theorem At.unique {v : IntersperseView α} {i : Nat} {s s' : Nat × Bool} (h : v.At i s)
    (h' : v.At i s') : s = s' := by
  cases h with
  | empty hempty =>
    cases h' with
    | empty => rfl
    | element _ hk' => omega
    | separator _ hk' => omega
  | @element i k hi hk =>
    cases h' with
    | empty hempty => omega
    | @element i k' hi' hk' =>
      obtain rfl : k = k' := by omega
      rfl
    | separator hi' hk' => omega
  | @separator i k hi hk =>
    cases h' with
    | empty hempty => omega
    | element hi' hk' => omega
    | @separator i k' hi' hk' =>
      obtain rfl : k = k' := by omega
      rfl

theorem At.le {v : IntersperseView α} {i : Nat} {s : Nat × Bool} (h : v.At i s) :
    s.1 ≤ v.base.length ∧ i ≤ v.count := by
  unfold count
  cases h <;> simp only <;> omega

/-- A flag that is set counts for one, on both sides. -/
theorem At.number {v : IntersperseView α} {i : Nat} {s : Nat × Bool} (h : v.At i s) :
    2 * s.1 + s.2.toNat = i + v.begin_.2.toNat := by
  have hbegin : v.base.length ≠ 0 → v.begin_.2 = true := fun hbase =>
    decide_eq_true (Ne.symm hbase)
  cases h with
  | empty hempty => simp [begin_, hempty]
  | element hi hk => rw [hbegin (by omega), hi, Bool.toNat_true]
  | separator hi hk =>
    rw [hbegin (by omega), hi]
    rfl

theorem exists_at (v : IntersperseView α) {i : Nat} (hi : i ≤ v.count) : ∃ s, v.At i s := by
  unfold count at hi
  by_cases hempty : v.base.length = 0
  · obtain rfl : i = 0 := by omega
    exact ⟨_, .empty hempty⟩
  · rcases Nat.mod_two_eq_zero_or_one i with heven | hodd
    · exact ⟨_, .element (k := i / 2) (by omega) (by omega)⟩
    · exact ⟨_, .separator (k := i / 2) (by omega) (by omega)⟩

theorem next_ok {v : IntersperseView α} {i : Nat} {s : Nat × Bool} (hat : v.At i s)
    (hi : i < v.count) : ∃ s', v.next s = .ok s' ∧ v.At (i + 1) s' := by
  unfold count at hi
  cases hat with
  | empty hempty => omega
  | @element i k heq hk =>
    have hrun : incr v.base k = .ok (k + 1) := incr_ok hk
    exact ⟨(k + 1, false), by simp [next, hrun], .separator (by omega) hk⟩
  | @separator i k heq hk => exact ⟨(k + 1, true), rfl, .element (by omega) (by omega)⟩

theorem prev_ok {v : IntersperseView α} {i : Nat} {s : Nat × Bool} (hat : v.At (i + 1) s) :
    ∃ s', prev s = .ok s' ∧ v.At i s' := by
  generalize hj : i + 1 = j at hat
  cases hat with
  | empty hempty => omega
  | @element j k heq hk =>
    obtain ⟨k, rfl⟩ : ∃ m, k = m + 1 := ⟨k - 1, by omega⟩
    exact ⟨(k + 1, false), rfl, .separator (by omega) (by omega)⟩
  | @separator j k heq hk =>
    have hrun : stepBack (k + 1) = .ok k := stepBack_succ k
    exact ⟨(k, true), by simp [prev, hrun], .element (by omega) hk⟩

theorem numbers (v : IntersperseView α) :
    Loop.Numbers v.loop (v.base.intersperse v.val) v.At where
  start := by
    refine ⟨v.begin_, rfl, ?_⟩
    unfold begin_
    by_cases hempty : v.base.length = 0
    · rw [decide_eq_false (not_not_intro hempty.symm)]
      exact .empty hempty
    · rw [decide_eq_true (Ne.symm hempty)]
      exact .element rfl (Nat.pos_of_ne_zero hempty)
  next i s hat hi := next_ok hat (by rwa [List.length_intersperse] at hi)
  atEnd i s hat := by
    -- only the end has the flag clear on the last iterator, and no cursor has it set there
    have hend : (i = v.count) = (s.1 = v.base.length) := by
      unfold count
      cases hat <;> simp only [eq_iff_iff] <;> omega
    have hflag : s.1 = v.base.length → s.2 = false := by
      cases hat <;> simp only [implies_true]
      omega
    have hcursor : equal s v.end_ = (s.1 == v.base.length) := by
      simp only [equal, end_, Bool.and_eq_left_iff_imp, beq_iff_eq]
      exact hflag
    have hcount : (v.base.intersperse v.val).length = v.count := List.length_intersperse
    simp only [hcount, hend]
    show Except.ok (if _ then equal s v.end_ else s.1 == v.base.length) = _
    rw [hcursor, ite_self]
    rfl
  read i s x hat hx := by
    cases hat with
    | empty hempty =>
      rw [List.length_eq_zero_iff.mp hempty] at hx
      cases hx
    | @element i k heq hk =>
      rw [heq, List.getElem?_intersperse_two_mul] at hx
      exact deref_of_some hx
    | @separator i k heq hk =>
      have hlt : 2 * k + 1 < 2 * v.base.length - 1 := by
        have h := (List.getElem?_eq_some_iff.mp hx).1
        rw [List.length_intersperse] at h
        omega
      rw [heq, List.getElem?_intersperse_two_mul_add_one (by omega)] at hx
      exact congrArg Except.ok (Option.some.inj hx)

/-- The correction by the flag makes the division, which truncates, exact enough. -/
theorem advanceCount_eq {n d : Int} {toggle toggle' : Bool}
    (hn : n = 2 * d + ((toggle'.toNat : Int) - toggle.toNat)) (hlow : -diffMax < n)
    (hhigh : n < diffMax) : advanceCount n toggle = .ok d := by
  have hnot : ((!toggle).toNat : Int) = 1 - toggle.toNat := by cases toggle <;> rfl
  have hle := Bool.toNat_le toggle
  have hle' := Bool.toNat_le toggle'
  unfold advanceCount
  split
  next hpos =>
    have hhalf : (n + toggle.toNat).tdiv 2 = d := by
      rw [Int.tdiv_eq_ediv_of_nonneg (by omega)]
      omega
    rw [signed_of_abs (by omega) (by omega), exec_bind_ok, hhalf]
  next hneg =>
    have hhalf : (n - (!toggle).toNat).tdiv 2 = d := by
      rw [hnot, ← Int.neg_neg (n - _), Int.neg_tdiv, Int.tdiv_eq_ediv_of_nonneg (by omega)]
      omega
    rw [signed_of_abs (by omega) (by omega), exec_bind_ok, hhalf]

theorem toggle_eq {n d : Int} {toggle toggle' : Bool}
    (hn : n = 2 * d + ((toggle'.toNat : Int) - toggle.toNat)) :
    (if n.tmod 2 ≠ 0 then !toggle else toggle) = toggle' := by
  have hodd : n.tmod 2 ≠ 0 ↔ ¬ 2 ∣ n := not_congr Int.dvd_iff_tmod_eq_zero.symm
  simp only [hodd]
  cases toggle <;> cases toggle' <;> simp only [Bool.toNat_true, Bool.toNat_false] at hn
  · rw [if_neg (by omega)]
  · rw [if_pos (by omega)]; rfl
  · rw [if_pos (by omega)]; rfl
  · rw [if_neg (by omega)]

theorem distanceTo_ok {v : IntersperseView α} (hlength : v.base.length < 2 ^ 62) {i j : Nat}
    {s s' : Nat × Bool} (hat : v.At i s) (hat' : v.At j s') :
    distanceTo s s' = .ok ((j : Int) - i) := by
  have hle := hat.le.1
  have hle' := hat'.le.1
  have hnumber := hat.number
  have hnumber' := hat'.number
  have htoggle := Bool.toNat_le s.2
  have htoggle' := Bool.toNat_le s'.2
  have hsum : ((s'.1 : Int) - s.1) * 2 + ((s'.2.toNat : Int) - s.2.toNat) = (j : Int) - i := by
    omega
  have hdelta : signed ((s'.1 : Int) - s.1) = .ok ((s'.1 : Int) - s.1) := by
    apply signed_of_abs <;> unfold diffMax <;> omega
  have htwice : signed (((s'.1 : Int) - s.1) * 2) = .ok (((s'.1 : Int) - s.1) * 2) := by
    apply signed_of_abs <;> unfold diffMax <;> omega
  rw [distanceTo, hdelta, exec_bind_ok, htwice, exec_bind_ok, hsum]
  apply signed_of_abs <;> unfold diffMax <;> omega

theorem advance_ok {v : IntersperseView α} (hlength : v.base.length < 2 ^ 62) {i j : Nat}
    {s : Nat × Bool} (hat : v.At i s) (hj : j ≤ v.count) :
    ∃ s', v.advance ((j : Int) - i) s = .ok s' ∧ v.At j s' := by
  obtain ⟨⟨it', toggle'⟩, hat'⟩ := v.exists_at hj
  obtain ⟨it, toggle⟩ := s
  refine ⟨(it', toggle'), ?_, hat'⟩
  have hle := hat.le
  have hle' := hat'.le.1
  have hnumber := hat.number
  have hnumber' := hat'.number
  simp only [count] at hle hj hle' hnumber hnumber'
  have hn : (j : Int) - i = 2 * ((it' : Int) - it) + ((toggle'.toNat : Int) - toggle.toNat) := by
    omega
  have htoggle := Bool.toNat_le toggle
  have htoggle' := Bool.toNat_le toggle'
  have hcount : advanceCount ((j : Int) - i) toggle = .ok ((it' : Int) - it) := by
    apply advanceCount_eq hn <;> unfold diffMax <;> omega
  have hmove : advanceBy v.traits v.base.length it ((it' : Int) - it) = .ok it' :=
    advanceBy_eq v.traits hle.1 hle' (by omega)
  rw [advance, hcount, exec_bind_ok, hmove, exec_bind_ok, toggle_eq hn]

theorem numbering (v : IntersperseView α) : Loop.Numbering v.loop v.count v.At := by
  have hnumbering := v.numbers.toNumbering
  rwa [List.length_intersperse] at hnumbering

/-- The unsigned product does not wrap, for a size that is a difference. -/
theorem size_eq (v : IntersperseView α) : v.size = v.count := by
  have hlength := v.length_le
  unfold diffMax at hlength
  simp only [size, count]
  split
  next hbase =>
    have htwice : unsigned ((v.base.length : Int) * 2) = v.base.length * 2 :=
      unsigned_natCast (n := v.base.length * 2) (by omega)
    have hpred : ((v.base.length * 2 : Nat) : Int) - 1 = (v.base.length * 2 - 1 : Nat) := by omega
    rw [htwice, hpred, unsigned_natCast (by omega), Nat.mul_comm]
  next hempty => omega

/-- A value of the difference type. -/
def IsDifference (n : Int) : Prop := diffMin ≤ n ∧ n ≤ diffMax

instance (n : Int) : Decidable (IsDifference n) :=
  inferInstanceAs (Decidable (diffMin ≤ n ∧ n ≤ diffMax))

structure Law (v : IntersperseView α) : Prop where
  elements : Loop.Delivers v.loop (v.base.intersperse v.val)
  size : v.traits.sized = true → v.size = (v.base.intersperse v.val).length
  prev : v.traits.bidirectional = true → Loop.PrevUndoesNext v.loop prev v.count
  advance : v.traits.randomAccess = true →
    Loop.JumpsAreSteps v.loop IntersperseView.prev v.advance v.count IsDifference
  distance : v.traits.sizedIterator = true →
    Loop.DistancesAreSteps v.loop distanceTo v.count IsDifference

/-- The distance from the first element to the separator behind element `2 ^ 62 - 1`, the
largest there is, is doubled before the flags are subtracted. -/
theorem not_law {v : IntersperseView α} (hsized : v.traits.sizedIterator = true)
    (hlength : 2 ^ 62 ≤ v.base.length) : ¬ v.Law := by
  intro law
  have hj : 2 ^ 63 - 1 ≤ v.count := by
    unfold count
    omega
  obtain ⟨s, s', hs, hs', hdistance⟩ :=
    law.distance hsized 0 (Nat.zero_le _) (2 ^ 63 - 1) hj (by decide)
  obtain ⟨t, ht, hat⟩ := v.numbering.nth_eq (Nat.zero_le _)
  obtain ⟨t', ht', hat'⟩ := v.numbering.nth_eq hj
  have hfirst : v.At 0 (0, true) := .element rfl (by omega)
  have hlast : v.At (2 ^ 63 - 1) (2 ^ 62, false) := .separator (k := 2 ^ 62 - 1) rfl (by omega)
  rw [hs] at ht
  rw [hs'] at ht'
  rw [Except.ok.inj ht, Except.ok.inj ht', hat.unique hfirst, hat'.unique hlast] at hdistance
  exact absurd hdistance (by decide)

theorem law_iff (v : IntersperseView α) :
    v.Law ↔ (v.traits.sizedIterator = true → v.base.length < 2 ^ 62) := by
  constructor
  · intro law hsized
    exact Nat.not_le.mp fun hlength => not_law hsized hlength law
  · intro h
    have hprev := fun i s (hat : v.At (i + 1) s) (_ : i < v.count) => prev_ok hat
    refine { elements := v.numbers.delivers, size := fun _ => ?_, prev := fun _ => ?_
             advance := fun hrandom => ?_, distance := fun hsized => ?_ }
    · rw [v.size_eq, List.length_intersperse, count]
    · exact v.numbering.prevUndoesNext (fun _ _ _ => At.unique) hprev
    · have hlength := h (v.traits.sized_of_random (of_decide_eq_true hrandom))
      exact v.numbering.jumpsAreSteps (fun _ _ _ => At.unique) hprev
        fun i j s hat _ hj _ => advance_ok hlength hat hj
    · exact v.numbering.distancesAreSteps
        fun i j s s' hat hat' _ _ _ => distanceTo_ok (h hsized) hat hat'

/-- An array of `2 ^ 62` elements. -/
theorem not_law_replicate :
    ¬ Law (α := Nat) ⟨List.replicate (2 ^ 62) 0, 1, .ofArray, by
      rw [List.length_replicate]; decide⟩ :=
  not_law rfl (Nat.le_of_eq List.length_replicate.symm)

end IntersperseView

end EARanges.View
