import EARanges.Iterator.DifferenceT
import EARanges.Iterator.RangeTraits

/-!
# `subrange`

view/subrange.hpp, for a subrange of a bidirectional sequence whose sentinel is an
iterator. The iterators are positions in the underlying sequence of `length` elements, and
one that leaves it faults. `prev` is a bounded advance by a negative count towards the end,
so with the bound on the wrong side: an iterator that is no sized sentinel steps back
without meeting it, one that is a sized sentinel violates what the bounded advance expects.
-/
namespace EARanges.View
open EARanges.Support EARanges.Iterator

/-- The iterator type, and whether the kind is `subrange_kind::sized`. -/
structure SubrangeType where
  lang : IfConstexpr
  traits : RangeTraits
  sized : Bool
  bidirectional : traits.bidirectional = true
  sized_of_iterator : traits.sizedIterator = true → sized = true

/-- `store_size_`. -/
def SubrangeType.storeSize (T : SubrangeType) : Bool := T.sized && !T.traits.sizedIterator

/-- `stored` is the third member of `data_t`, where there is one. -/
structure Subrange where
  first : Nat
  last : Nat
  stored : Nat
  deriving DecidableEq, Repr

namespace Subrange

/-- `set_size_`, in the arithmetic of `size_type`. -/
def setSize (T : SubrangeType) (s : Subrange) (n : Nat) : Subrange :=
  if T.storeSize then { s with stored := unsigned ((s.stored : Int) - n) } else s

def advance (T : SubrangeType) (length : Nat) (s : Subrange) (n : Int) : Exec Subrange := do
  let (first, rest) ← advanceTo T.lang T.traits length s.first n s.last
  .ok (setSize T { s with first } (unsigned (n - rest)))

def next (T : SubrangeType) (length : Nat) (s : Subrange) (n : Int) : Exec Subrange :=
  advance T length s n

def prev (T : SubrangeType) (length : Nat) (s : Subrange) (n : Int) : Exec Subrange :=
  advance T length s (-n)

def size (T : SubrangeType) (s : Subrange) : Nat :=
  if T.traits.sizedIterator then unsigned ((s.last : Int) - s.first) else s.stored

/-- A subrange of the underlying sequence: a stored size is the distance. -/
structure Within (T : SubrangeType) (length : Nat) (s : Subrange) : Prop where
  first_le : s.first ≤ s.last
  last_le : s.last ≤ length
  length_le : (length : Int) ≤ diffMax
  stored_eq : T.storeSize = true → s.stored = s.last - s.first

/-- The calls that violate the expectation of the bounded advance: back from in front of
a sized sentinel. -/
def Violates (T : SubrangeType) (s : Subrange) (n : Int) : Prop :=
  T.traits.sizedIterator = true ∧ n < 0 ∧ s.first ≠ s.last

/-- An exhausted subrange whose bound is compared before the first step back. -/
def Stuck (T : SubrangeType) (s : Subrange) : Prop :=
  s.first = s.last ∧ (T.traits.sizedIterator = true ∨ T.lang = .older)

instance (T : SubrangeType) (s : Subrange) : Decidable (Stuck T s) :=
  inferInstanceAs (Decidable (_ ∧ _))

/-- Where the begin goes: forward as far as the end; back, unless it is stuck. -/
def target (T : SubrangeType) (s : Subrange) (n : Int) : Int :=
  if 0 ≤ n then min (s.first + n) s.last else if Stuck T s then s.first else s.first + n

/-! ## Advancing back, with the bound ahead -/

/-- Stepping back from in front of the bound never meets it. -/
theorem boundedLoop_away (length : Nat) (bound : Int) (m : Nat) {w : Walker}
    (hbound : w.pos < bound) (hlow : (m : Int) ≤ w.pos) (hhigh : w.pos ≤ length) :
    ∃ w', boundedLoop length (-1) bound m w = .ok (w', 0) ∧ w'.pos = w.pos - m := by
  induction m generalizing w with
  | zero => exact ⟨w, rfl, (Int.sub_zero _).symm⟩
  | succ m ih =>
    have hstep : Walker.step length (-1) w = .ok ⟨w.pos + -1, w.trace ++ [w.pos + -1]⟩ :=
      step_ok (by omega) (by omega)
    obtain ⟨w', hrun, hpos⟩ := ih (w := ⟨w.pos + -1, w.trace ++ [w.pos + -1]⟩)
      (by dsimp only; omega) (by dsimp only; omega) (by dsimp only; omega)
    dsimp only at hpos
    refine ⟨w', ?_, by omega⟩
    rw [boundedLoop, if_pos (Int.ne_of_lt hbound), hstep, exec_bind_ok, hrun]

theorem advanceTo_away {lang : IfConstexpr} {t : RangeTraits} {length it m bound : Nat}
    (hsized : t.sizedIterator = false) (hm : 0 < m) (hlow : m ≤ it) (hbound : it ≤ bound)
    (hhigh : it ≤ length) (hstays : lang = .cxx17 ∨ it < bound) :
    advanceTo lang t length it (-m) bound = .ok (it - m, 0) := by
  have hsentinel : t.iterTraits.sizedSentinel = false := hsized
  obtain ⟨m, rfl⟩ := Nat.exists_eq_succ_of_ne_zero (Nat.ne_of_gt hm)
  have hrun : ∃ w, advanceFn lang t.iterTraits length ⟨it, []⟩ (-(m.succ : Nat)) bound =
      .ok (w, 0) ∧ w.pos = (it : Int) - m.succ := by
    cases lang with
    | cxx17 =>
      have hstep : Walker.dec length ⟨it, []⟩ = .ok ⟨(it : Int) + -1, [] ++ [(it : Int) + -1]⟩ :=
        step_ok (by dsimp only; omega) (by dsimp only; omega)
      obtain ⟨w, hloop, hpos⟩ := boundedLoop_away length bound m
        (w := ⟨(it : Int) + -1, [] ++ [(it : Int) + -1]⟩) (by dsimp only; omega)
        (by dsimp only; omega) (by dsimp only; omega)
      have hcount : (-(-(m.succ : Nat) : Int) - 1).toNat = m := by omega
      dsimp only at hpos
      refine ⟨w, ?_, by omega⟩
      simp only [advanceFn, Iterator.advance, hsentinel, Bool.false_eq_true, if_false]
      rw [if_pos (by omega), hcount, doBackward_eq, hstep, exec_bind_ok]
      exact hloop
    | older =>
      have hlt : it < bound := by
        obtain hold | hlt := hstays
        · cases hold
        · exact hlt
      obtain ⟨w, hloop, hpos⟩ := boundedLoop_away length bound m.succ
        (w := ⟨it, []⟩) (by dsimp only; omega) (by dsimp only; omega) (by dsimp only; omega)
      have hcount : (-(-(m.succ : Nat) : Int)).toNat = m.succ := by omega
      refine ⟨w, ?_, hpos⟩
      simp only [advanceFn, bounded, hsentinel, Bool.false_eq_true, if_false]
      rw [if_neg (by omega), hcount]
      exact hloop
  obtain ⟨w, hrun, hpos⟩ := hrun
  have htarget : w.pos.toNat = it - m.succ := by omega
  rw [advanceTo, hrun, exec_bind_ok]
  dsimp only
  rw [htarget]

/-- At the bound nothing moves where it is compared first. -/
theorem advanceTo_at_bound {lang : IfConstexpr} {t : RangeTraits} {length it m : Nat} (hm : 0 < m)
    (hhigh : it ≤ length) (hstays : t.sizedIterator = true ∨ lang = .older) :
    advanceTo lang t length it (-m) it = .ok (it, -m) := by
  have hreach : Reaches length it (-m) it :=
    ⟨by omega, by omega, by omega, by omega, by omega, by omega⟩
  have hnear : nearer it (-m) it = it := by
    unfold nearer
    split <;> omega
  rw [advanceTo_of_law hreach (hstays.symm.imp_right .inl), hnear]
  congr 2
  omega

/-- In front of a sized sentinel. -/
theorem advanceTo_violates {lang : IfConstexpr} {t : RangeTraits} {length it bound : Nat} {n : Int}
    (hsized : t.sizedIterator = true) (hn : n < 0) (hlt : it < bound) :
    advanceTo lang t length it n bound = .error .fault := by
  have hsentinel : t.iterTraits.sizedSentinel = true := hsized
  have hexpect : ¬ (if 0 ≤ n then 0 ≤ (bound : Int) - it else 0 ≥ (bound : Int) - it) := by
    rw [if_neg (by omega)]
    omega
  have hfault : Iterator.advance t.iterTraits length ⟨it, []⟩ n bound = .error .fault := by
    rw [Iterator.advance, if_pos hsentinel, if_neg (Int.ne_of_lt hn)]
    exact if_pos hexpect
  unfold advanceTo
  cases lang with
  | cxx17 =>
    rw [advanceFn, hfault]
    rfl
  | older =>
    rw [advanceFn, bounded_sized _ hsentinel, hfault]
    rfl

/-! ## One call -/

variable {T : SubrangeType} {length : Nat} {s : Subrange}

theorem target_mem (h : Within T length s) {n : Int} (hstay : 0 ≤ (s.first : Int) + n) :
    0 ≤ target T s n ∧ target T s n ≤ s.last := by
  have hle := h.first_le
  unfold target
  split
  · omega
  · split <;> omega

/-- The iterator goes to the target, and what is left of `n` is returned. -/
theorem advanceTo_target (h : Within T length s) {n : Int} (hstay : 0 ≤ (s.first : Int) + n)
    (hok : ¬ Violates T s n) :
    advanceTo T.lang T.traits length s.first n s.last =
      .ok ((target T s n).toNat, n - (target T s n - s.first)) := by
  have hfirst := h.first_le
  have hlast := h.last_le
  rcases lt_or_ge n 0 with hneg | hpos
  · obtain ⟨m, rfl⟩ : ∃ m : Nat, n = -m := ⟨(-n).toNat, by omega⟩
    by_cases hstuck : Stuck T s
    · have htarget : target T s (-m) = s.first := by
        rw [target, if_neg (by omega), if_pos hstuck]
      rw [htarget, ← hstuck.1, advanceTo_at_bound (by omega) (by omega) hstuck.2]
      congr 2
      omega
    · have htarget : target T s (-m) = s.first - m := by
        rw [target, if_neg (by omega), if_neg hstuck]
        exact Int.sub_eq_add_neg.symm
      have hsized : T.traits.sizedIterator = false := by
        apply Bool.eq_false_of_not_eq_true
        intro hsized
        by_cases hend : s.first = s.last
        · exact hstuck ⟨hend, .inl hsized⟩
        · exact hok ⟨hsized, hneg, hend⟩
      have hstays : T.lang = .cxx17 ∨ s.first < s.last := by
        cases hlang : T.lang with
        | cxx17 => exact .inl rfl
        | older =>
          right
          by_contra hend
          exact hstuck ⟨by omega, .inr hlang⟩
      rw [htarget, advanceTo_away hsized (by omega) (by omega) hfirst (by omega) hstays]
      congr 2 <;> omega
  · have hreach : Reaches length s.first n s.last :=
      ⟨by omega, by omega, by omega, by omega, by omega, by omega⟩
    have htarget : target T s n = nearer s.first n s.last := by
      rw [target, if_pos hpos]
      unfold nearer
      split <;> omega
    rw [htarget]
    exact advanceTo_of_law hreach (.inr (.inr (.inl hpos)))

/-- The subrange with the begin moved, a stored size being the new distance. -/
def moved (T : SubrangeType) (s : Subrange) (n : Int) : Subrange where
  first := (target T s n).toNat
  last := s.last
  stored := if T.storeSize then s.last - (target T s n).toNat else s.stored

theorem within_moved (h : Within T length s) {n : Int} (hstay : 0 ≤ (s.first : Int) + n) :
    Within T length (moved T s n) := by
  have htarget := target_mem h hstay
  refine ⟨?_, h.last_le, h.length_le, fun hstore => if_pos hstore⟩
  dsimp only [moved]
  omega

theorem advance_eq (h : Within T length s) {n : Int} (hstay : 0 ≤ (s.first : Int) + n)
    (hok : ¬ Violates T s n) : advance T length s n = .ok (moved T s n) := by
  have htarget := target_mem h hstay
  have hfirst := h.first_le
  have hlast := h.last_le
  have hlength := h.length_le
  rw [advance, advanceTo_target h hstay hok, exec_bind_ok]
  unfold setSize moved
  dsimp only
  congr 1
  split
  · next hstore =>
    have hstored := h.stored_eq hstore
    congr 1
    unfold unsigned
    unfold diffMax at hlength
    omega
  · rfl

theorem advance_violates (h : Within T length s) {n : Int} (hviolates : Violates T s n) :
    advance T length s n = .error .fault := by
  obtain ⟨hsized, hneg, hne⟩ := hviolates
  have hlt : s.first < s.last := Nat.lt_of_le_of_ne h.first_le hne
  rw [advance, advanceTo_violates hsized hneg hlt, exec_bind_error]

theorem size_eq (h : Within T length s) (hsized : T.sized = true) :
    size T s = s.last - s.first := by
  have hfirst := h.first_le
  have hlast := h.last_le
  have hlength := h.length_le
  unfold diffMax at hlength
  unfold size
  split
  · unfold unsigned
    omega
  · next hiterator =>
    apply h.stored_eq
    rw [SubrangeType.storeSize, hsized, Bool.eq_false_of_not_eq_true hiterator]
    rfl

/-! ## Forth and back -/

/-- The way back from `k` steps forward. -/
def Returnable (T : SubrangeType) (s : Subrange) (k : Nat) : Prop :=
  k = 0 ∨ T.traits.sizedIterator = false ∧ (T.lang = .cxx17 ∨ s.first + k < s.last)

theorem moved_forward {k : Nat} (hk : s.first + k ≤ s.last) :
    moved T s k = ⟨s.first + k, s.last,
      if T.storeSize then s.last - (s.first + k) else s.stored⟩ := by
  have htarget : (target T s k).toNat = s.first + k := by
    rw [target, if_pos (Int.natCast_nonneg k)]
    omega
  rw [moved, htarget]

/-- After `k` steps forward the way back is open. -/
theorem returnable_iff {k : Nat} (hpos : 0 < k) (hk : s.first + k ≤ s.last) (stored : Nat) :
    Returnable T s k ↔
      ¬ Violates T ⟨s.first + k, s.last, stored⟩ (-k) ∧
        ¬ Stuck T ⟨s.first + k, s.last, stored⟩ := by
  unfold Returnable Violates Stuck
  cases hlang : T.lang <;> cases hsized : T.traits.sizedIterator <;> simp <;> omega

theorem moved_eq_self (h : Within T length s) (s' : Subrange) (n : Int) (hlast : s'.last = s.last)
    (hstored : T.storeSize = false → s'.stored = s.stored) (hpos : 0 ≤ target T s' n) :
    moved T s' n = s ↔ target T s' n = s.first := by
  constructor
  · intro heq
    have hfirst : (target T s' n).toNat = s.first := congrArg Subrange.first heq
    omega
  · intro htarget
    unfold moved
    rw [htarget, hlast, Int.toNat_natCast]
    cases hstore : T.storeSize with
    | true => rw [if_pos rfl, ← h.stored_eq hstore]
    | false => rw [if_neg Bool.false_ne_true, hstored hstore]

theorem next_prev_iff (h : Within T length s) {k : Nat} (hk : s.first + k ≤ s.last) :
    (next T length s k >>= fun s' => prev T length s' k) = .ok s ↔ Returnable T s k := by
  have hstay : 0 ≤ (s.first : Int) + k := by omega
  have hforward : ¬ Violates T s k := fun hviolates => absurd hviolates.2.1 (by omega)
  have hwithin := within_moved h hstay
  have hstored : T.storeSize = false → (moved T s k).stored = s.stored := fun hstore =>
    if_neg (by rw [hstore]; exact Bool.false_ne_true)
  rw [next, advance_eq h hstay hforward, exec_bind_ok, prev]
  have hmoved := moved_forward (T := T) hk
  have hstay' : 0 ≤ ((moved T s k).first : Int) + -k := by
    rw [hmoved]
    dsimp only
    omega
  have hback := moved_eq_self h (moved T s k) (-k) rfl hstored
    (target_mem hwithin hstay').1
  rcases Nat.eq_zero_or_pos k with rfl | hpos
  · have hnone : ¬ Violates T (moved T s 0) (-((0 : Nat) : Int)) := fun hviolates =>
      absurd hviolates.2.1 (by omega)
    rw [advance_eq hwithin hstay' hnone, Except.ok.injEq]
    refine iff_of_true (hback.mpr ?_) (.inl rfl)
    rw [hmoved, target, if_pos (by omega)]
    dsimp only
    omega
  rw [returnable_iff hpos hk (if T.storeSize then s.last - (s.first + k) else s.stored), ← hmoved]
  by_cases hviolates : Violates T (moved T s k) (-k)
  · rw [advance_violates hwithin hviolates]
    exact iff_of_false nofun fun hopen => hopen.1 hviolates
  · rw [advance_eq hwithin hstay' hviolates, Except.ok.injEq, hback, target, if_neg (by omega)]
    have hfirst : (moved T s k).first = s.first + k := by rw [hmoved]
    by_cases hstuck : Stuck T (moved T s k)
    · rw [if_pos hstuck, hfirst]
      exact iff_of_false (by omega) fun hopen => hopen.2 hstuck
    · rw [if_neg hstuck, hfirst]
      exact iff_of_true (by omega) ⟨hviolates, hstuck⟩

/-! ## Sequences of calls -/

inductive Call where
  | next (n : Int)
  | prev (n : Int)
  | advance (n : Int)
  deriving DecidableEq, Repr

def Call.run (T : SubrangeType) (length : Nat) (s : Subrange) : Call → Exec Subrange
  | .next n => Subrange.next T length s n
  | .prev n => Subrange.prev T length s n
  | .advance n => Subrange.advance T length s n

/-- The count that is handed to `advance`. -/
def Call.count : Call → Int
  | .next n | .advance n => n
  | .prev n => -n

theorem Call.run_eq (c : Call) : c.run T length s = Subrange.advance T length s c.count := by
  cases c <;> rfl

def runCalls (T : SubrangeType) (length : Nat) : Subrange → List Call → Exec Subrange
  | s, [] => .ok s
  | s, c :: cs => do
    let s ← c.run T length s
    runCalls T length s cs

/-- Every call leaves the begin in the underlying sequence. -/
def StaysInside (T : SubrangeType) (length : Nat) : Subrange → List Call → Prop
  | _, [] => True
  | s, c :: cs => 0 ≤ (s.first : Int) + c.count ∧
      ∀ s', c.run T length s = .ok s' → StaysInside T length s' cs

/-- No call goes back from in front of a sized sentinel. -/
def NeverViolates (T : SubrangeType) (length : Nat) : Subrange → List Call → Prop
  | _, [] => True
  | s, c :: cs => ¬ Violates T s c.count ∧
      ∀ s', c.run T length s = .ok s' → NeverViolates T length s' cs

theorem runCalls_of_never (h : Within T length s) {cs : List Call}
    (hinside : StaysInside T length s cs) (hnever : NeverViolates T length s cs) :
    ∃ s', runCalls T length s cs = .ok s' ∧ Within T length s' := by
  induction cs generalizing s with
  | nil => exact ⟨s, rfl, h⟩
  | cons c cs ih =>
    obtain ⟨hstay, hrest⟩ := hinside
    obtain ⟨hviolates, hnever⟩ := hnever
    have hrun : c.run T length s = .ok (moved T s c.count) := by
      rw [c.run_eq, advance_eq h hstay hviolates]
    rw [runCalls, hrun, exec_bind_ok]
    exact ih (within_moved h hstay) (hrest _ hrun) (hnever _ hrun)

theorem never_of_runCalls (h : Within T length s) {cs : List Call} {s' : Subrange}
    (hinside : StaysInside T length s cs) (hruns : runCalls T length s cs = .ok s') :
    NeverViolates T length s cs := by
  induction cs generalizing s with
  | nil => trivial
  | cons c cs ih =>
    obtain ⟨hstay, hrest⟩ := hinside
    have hviolates : ¬ Violates T s c.count := by
      intro hviolates
      rw [runCalls, c.run_eq, advance_violates h hviolates] at hruns
      cases hruns
    have hrun : c.run T length s = .ok (moved T s c.count) := by
      rw [c.run_eq, advance_eq h hstay hviolates]
    rw [runCalls, hrun, exec_bind_ok] at hruns
    refine ⟨hviolates, fun next hnext => ?_⟩
    obtain rfl := Except.ok.inj (hrun.symm.trans hnext)
    exact ih (within_moved h hstay) (hrest _ hrun) hruns

/-- The subrange of the last two elements of a list of three, its size stored. -/
def listTail : SubrangeType := ⟨.cxx17, .ofList, true, rfl, fun _ => rfl⟩

end Subrange

end EARanges.View
