import EARanges.Support.Exec
import Mathlib.Data.Int.Order.Basic
import Mathlib.Tactic.Ring

/-!
# `advance`, `next` and `prev` with a bound

iterator/operations.hpp, for a bidirectional iterator whose sentinel is an iterator of
the same type. A sequence of `length` elements has the positions 0 to `length`; an
iterator moved off them is a fault. Each operation also records the positions the
iterator was moved onto: no function here dereferences, so this is everything it does
to the sequence. The C++17 functions and the older tag-dispatched ones are both
modelled; `if constexpr` conditions are the fields of `IterTraits`.
-/
namespace EARanges.Iterator
open EARanges.Support

/-- An iterator and the positions it has been moved onto, latest last. -/
structure Walker where
  pos : Int
  trace : List Int
  deriving DecidableEq, Repr

/-- Random access iterators are sized sentinels for themselves. -/
structure IterTraits where
  randomAccess : Bool
  sizedSentinel : Bool
  sized_of_random : randomAccess = true → sizedSentinel = true
  deriving DecidableEq, Repr

namespace Walker

/-- Moving an iterator of a sequence of `length` elements to position `p`. -/
def moveTo (length : Nat) (w : Walker) (p : Int) : Exec Walker :=
  if 0 ≤ p ∧ p ≤ length then .ok ⟨p, w.trace ++ [p]⟩ else .error .fault

/-- `++i` for `δ = 1` and `--i` for `δ = -1`. -/
def step (length : Nat) (δ : Int) (w : Walker) : Exec Walker := moveTo length w (w.pos + δ)

def inc (length : Nat) : Walker → Exec Walker := step length 1

def dec (length : Nat) : Walker → Exec Walker := step length (-1)

end Walker
open Walker

/-- A counting loop of single steps. -/
def stepLoop (length : Nat) (δ : Int) : Nat → Walker → Exec Walker
  | 0, w => .ok w
  | n + 1, w => do stepLoop length δ n (← step length δ w)

/-- `for(; 0 > n; ++n) --i;` -/
def decLoop (length : Nat) : Nat → Walker → Exec Walker := stepLoop length (-1)

/-- `for(; 0 < n; --n) ++i;` -/
def incLoop (length : Nat) : Nat → Walker → Exec Walker := stepLoop length 1

/-- A counting loop that also stops at `bound`, returning what is left of the count. -/
def boundedLoop (length : Nat) (δ bound : Int) : Nat → Walker → Exec (Walker × Int)
  | 0, w => .ok (w, 0)
  | n + 1, w =>
    if w.pos ≠ bound then do boundedLoop length δ bound n (← step length δ w)
    else .ok (w, δ * (n + 1))

/-- `while(0 != n && i != bound) { ++i; --n; }`. -/
def whileForward (length : Nat) (bound : Int) : Nat → Walker → Exec (Walker × Int) :=
  boundedLoop length 1 bound

/-- `for(; 0 != n && it != bound; ++n) --it;` of the bidirectional `bounded_`. -/
def forBackward (length : Nat) (bound : Int) : Nat → Walker → Exec (Walker × Int) :=
  boundedLoop length (-1) bound

/-- `advance(i, n)`, the same in both language modes: `i += n`, or one loop in the
direction of `n`. -/
def advanceN (t : IterTraits) (length : Nat) (w : Walker) (n : Int) : Exec Walker :=
  if t.randomAccess then moveTo length w (w.pos + n)
  else if n < 0 then decLoop length (-n).toNat w
  else incLoop length n.toNat w

/-- `do { --i; ++n; } while(0 != n && i != bound);` for `n = -(m + 1)`. -/
def doBackward (length : Nat) (bound : Int) : Nat → Walker → Exec (Walker × Int)
  | 0, w => do
    let w ← dec length w
    .ok (w, 0)
  | m + 1, w => do
    let w ← dec length w
    if w.pos ≠ bound then doBackward length bound m w else .ok (w, -(m + 1))

/-- `advance_fn::operator()(I & i, iter_difference_t<I> n, S bound)`. -/
def advance (t : IterTraits) (length : Nat) (w : Walker) (n bound : Int) : Exec (Walker × Int) :=
  if t.sizedSentinel then
    if n = 0 then .ok (w, 0)
    else
      let d := bound - w.pos
      if ¬ (if 0 ≤ n then 0 ≤ d else 0 ≥ d) then .error .fault
      else if if 0 ≤ n then d ≤ n else d ≥ n then do
        let w ← moveTo length w bound
        .ok (w, n - d)
      else do
        let w ← advanceN t length w n
        .ok (w, 0)
  else if n < 0 then doBackward length bound (-n - 1).toNat w
  else whileForward length bound n.toNat w

/-- `advance_fn::bounded_`, chosen by sentinel tag. -/
def bounded (t : IterTraits) (length : Nat) (w : Walker) (n bound : Int) : Exec (Walker × Int) :=
  if t.sizedSentinel then
    if n = 0 then .ok (w, 0)
    else
      let d := bound - w.pos
      if ¬ (if 0 ≤ n then 0 ≤ d else 0 ≥ d) then .error .fault
      else if if 0 ≤ n then n ≥ d else n ≤ d then do
        let w ← moveTo length w bound
        .ok (w, n - d)
      else do
        let w ← advanceN t length w n
        .ok (w, 0)
  else if 0 ≤ n then whileForward length bound n.toNat w
  else forBackward length bound (-n).toNat w

/-- `next(it, n, bound)` and `prev(it, n, bound)` over either bounded advance. -/
def next (adv : Walker → Int → Int → Exec (Walker × Int)) (w : Walker) (n bound : Int) :
    Exec Walker := do
  let (w, _) ← adv w n bound
  .ok w

def prev (adv : Walker → Int → Int → Exec (Walker × Int)) (w : Walker) (n bound : Int) :
    Exec Walker := do
  let (w, _) ← adv w (-n) bound
  .ok w

/-! ## The bounded advance law -/

/-- Whichever of `i + n` and `b` is nearer to `i`. -/
def nearer (i n b : Int) : Int := if (b - i).natAbs < n.natAbs then b else i + n

/-- No position moved onto lies past `b`, seen from `i`. -/
def Between (i b p : Int) : Prop := (i ≤ p ∧ p ≤ b) ∨ (b ≤ p ∧ p ≤ i)

/-- The iterator stands at the nearer point and never left the stretch up to `b`. -/
def StopsNearer (i n b : Int) (w : Walker) : Prop :=
  w.pos = nearer i n b ∧ ∀ p ∈ w.trace, Between i b p

/-- The law for one call from position `i`: where it stops, what it touches on the
way, and that it returns what is left of `n`. -/
def BoundedLaw (run : Exec (Walker × Int)) (i n b : Int) : Prop :=
  ∃ w, run = .ok (w, n - (nearer i n b - i)) ∧ StopsNearer i n b w

/-- The precondition: both iterators belong to the sequence and `b` can be reached
from `i` in the direction of `n`. -/
structure Reaches (length : Nat) (i n b : Int) : Prop where
  i_nonneg : 0 ≤ i
  i_le : i ≤ length
  b_nonneg : 0 ≤ b
  b_le : b ≤ length
  forward : 0 < n → i ≤ b
  backward : n < 0 → b ≤ i

theorem moveTo_ok {length : Nat} {w : Walker} {p : Int} (h0 : 0 ≤ p) (hl : p ≤ length) :
    moveTo length w p = .ok ⟨p, w.trace ++ [p]⟩ := if_pos ⟨h0, hl⟩

theorem step_ok {length : Nat} {δ : Int} {w : Walker} (h0 : 0 ≤ w.pos + δ)
    (hl : w.pos + δ ≤ length) :
    step length δ w = .ok ⟨w.pos + δ, w.trace ++ [w.pos + δ]⟩ := moveTo_ok h0 hl

/-- The positions a loop adds to the trace are `w.pos + δ, ..., w.pos + m * δ`. -/
def Visits (δ : Int) (m : Nat) (w w' : Walker) : Prop :=
  ∀ p ∈ w'.trace, p ∈ w.trace ∨ ∃ j : Nat, j ≤ m ∧ p = w.pos + δ * j

theorem Visits.succ {δ : Int} {m : Nat} {w w' : Walker}
    (h : Visits δ m ⟨w.pos + δ, w.trace ++ [w.pos + δ]⟩ w') : Visits δ (m + 1) w w' := by
  intro p hp
  rcases h p hp with h | ⟨j, hj, rfl⟩
  · rcases List.mem_append.mp h with h | h
    · exact .inl h
    · exact .inr ⟨1, by omega, by simpa using h⟩
  · refine .inr ⟨j + 1, by omega, ?_⟩
    push_cast
    ring

theorem stepLoop_spec {length : Nat} {δ : Int} (hδ : δ = 1 ∨ δ = -1) (n : Nat) (w : Walker)
    (h0 : 0 ≤ w.pos) (hl : w.pos ≤ length) (h0' : 0 ≤ w.pos + δ * n)
    (hl' : w.pos + δ * n ≤ length) :
    ∃ w', stepLoop length δ n w = .ok w' ∧ w'.pos = w.pos + δ * n ∧ Visits δ n w w' := by
  induction n generalizing w with
  | zero => exact ⟨w, rfl, by simp, fun p hp => .inl hp⟩
  | succ n ih =>
    have hstep : step length δ w = .ok ⟨w.pos + δ, w.trace ++ [w.pos + δ]⟩ := by
      rcases hδ with rfl | rfl <;> exact step_ok (by omega) (by omega)
    obtain ⟨w', hrun, hpos, hvisits⟩ := ih ⟨w.pos + δ, w.trace ++ [w.pos + δ]⟩
      (by rcases hδ with rfl | rfl <;> dsimp only <;> omega)
      (by rcases hδ with rfl | rfl <;> dsimp only <;> omega)
      (by rcases hδ with rfl | rfl <;> dsimp only <;> omega)
      (by rcases hδ with rfl | rfl <;> dsimp only <;> omega)
    refine ⟨w', by rw [stepLoop, hstep]; exact hrun, ?_, hvisits.succ⟩
    rw [hpos]
    push_cast
    ring

/-- With `bound` lying `dist` steps ahead, the bounded loop makes the smaller of the
two numbers of steps. -/
theorem boundedLoop_spec {length : Nat} {δ bound : Int} (hδ : δ = 1 ∨ δ = -1) (n dist : Nat)
    (w : Walker) (h0 : 0 ≤ w.pos) (hl : w.pos ≤ length) (hb0 : 0 ≤ bound) (hbl : bound ≤ length)
    (hdist : bound = w.pos + δ * dist) :
    ∃ w', boundedLoop length δ bound n w = .ok (w', δ * ((n - min n dist : Nat) : Int)) ∧
      w'.pos = w.pos + δ * (min n dist : Nat) ∧ Visits δ (min n dist) w w' := by
  induction n generalizing w dist with
  | zero => exact ⟨w, by simp [boundedLoop], by simp, fun p hp => .inl hp⟩
  | succ n ih =>
    cases dist with
    | zero =>
      have hat : w.pos = bound := by rw [hdist]; simp
      exact ⟨w, by simp [boundedLoop, hat], by simp, fun p hp => .inl hp⟩
    | succ dist =>
      have hne : w.pos ≠ bound := by
        rcases hδ with rfl | rfl <;> omega
      have hstep : step length δ w = .ok ⟨w.pos + δ, w.trace ++ [w.pos + δ]⟩ := by
        rcases hδ with rfl | rfl <;> exact step_ok (by omega) (by omega)
      obtain ⟨w', hrun, hpos, hvisits⟩ := ih dist ⟨w.pos + δ, w.trace ++ [w.pos + δ]⟩
        (by rcases hδ with rfl | rfl <;> dsimp only <;> omega)
        (by rcases hδ with rfl | rfl <;> dsimp only <;> omega)
        (by rcases hδ with rfl | rfl <;> dsimp only <;> omega)
      have hmin : min (n + 1) (dist + 1) = min n dist + 1 := by omega
      have hleft : n + 1 - min (n + 1) (dist + 1) = n - min n dist := by omega
      refine ⟨w', ?_, ?_, by rw [hmin]; exact hvisits.succ⟩
      · rw [boundedLoop, if_pos hne, hstep, hleft]
        exact hrun
      · rw [hpos, hmin]
        push_cast
        ring

theorem nearer_step {δ : Int} (hδ : δ = 1 ∨ δ = -1) (i : Int) (n dist : Nat) :
    nearer i (δ * n) (i + δ * dist) = i + δ * (min n dist : Nat) := by
  unfold nearer
  rcases hδ with rfl | rfl <;> split <;> omega

theorem boundedLoop_law {length : Nat} {δ : Int} (hδ : δ = 1 ∨ δ = -1) (n dist : Nat) {i : Int}
    (h0 : 0 ≤ i) (hl : i ≤ length) (hb0 : 0 ≤ i + δ * dist) (hbl : i + δ * dist ≤ length) :
    BoundedLaw (boundedLoop length δ (i + δ * dist) n ⟨i, []⟩) i (δ * n) (i + δ * dist) := by
  obtain ⟨w', hrun, hpos, hvisits⟩ := boundedLoop_spec hδ n dist ⟨i, []⟩ h0 hl hb0 hbl rfl
  have hnear := nearer_step hδ i n dist
  refine ⟨w', ?_, hpos.trans hnear.symm, fun p hp => ?_⟩
  · rw [hrun, hnear]
    rcases hδ with rfl | rfl <;> congr 2 <;> omega
  · rcases hvisits p hp with h | ⟨j, hj, rfl⟩
    · cases h
    · unfold Between
      rcases hδ with rfl | rfl <;> dsimp only <;> omega

theorem BoundedLaw.zero (i b : Int) : BoundedLaw (.ok (⟨i, []⟩, 0)) i 0 b := by
  have hnear : nearer i 0 b = i := by unfold nearer; split <;> omega
  exact ⟨⟨i, []⟩, by rw [hnear]; simp, hnear.symm, fun p hp => by cases hp⟩

/-- The stepping loops meet the law in their direction; `n = 0` asks nothing of `b`. -/
theorem whileForward_law {length : Nat} {i n b : Int} (h : Reaches length i n b) (hn : 0 ≤ n) :
    BoundedLaw (whileForward length b n.toNat ⟨i, []⟩) i n b := by
  obtain ⟨hi, hil, hb, hbl, hfwd, _⟩ := h
  rcases Int.lt_or_eq_of_le hn with hpos | hzero
  · have hb' : i + 1 * ((b - i).toNat : Int) = b := by have := hfwd hpos; omega
    have hn' : 1 * (n.toNat : Int) = n := by omega
    have law := boundedLoop_law (.inl rfl) n.toNat (b - i).toNat hi hil (by omega)
      (by omega : i + 1 * ((b - i).toNat : Int) ≤ length)
    rwa [hb', hn'] at law
  · subst hzero
    exact BoundedLaw.zero i b

theorem forBackward_law {length : Nat} {i n b : Int} (h : Reaches length i n b) (hn : n < 0) :
    BoundedLaw (forBackward length b (-n).toNat ⟨i, []⟩) i n b := by
  obtain ⟨hi, hil, hb, hbl, _, hback⟩ := h
  have hb' : i + -1 * ((i - b).toNat : Int) = b := by have := hback hn; omega
  have hn' : -1 * ((-n).toNat : Int) = n := by omega
  have law := boundedLoop_law (.inr rfl) (-n).toNat (i - b).toNat hi hil (by omega)
    (by omega : i + -1 * ((i - b).toNat : Int) ≤ length)
  rwa [hb', hn'] at law

/-- The do-while is the bounded loop entered one step late. -/
theorem doBackward_eq (length : Nat) (bound : Int) (m : Nat) (w : Walker) :
    doBackward length bound m w =
      (dec length w >>= fun w' => forBackward length bound m w') := by
  induction m generalizing w with
  | zero => rfl
  | succ m ih =>
    unfold doBackward
    congr 1
    funext w'
    simp only [ih, forBackward, boundedLoop, dec]
    split
    · rfl
    · simp

theorem doBackward_of_ne {length : Nat} {bound : Int} (m : Nat) {w : Walker} (h : w.pos ≠ bound) :
    doBackward length bound m w = forBackward length bound (m + 1) w := by
  rw [doBackward_eq, forBackward, boundedLoop, if_pos h]
  rfl

theorem step_trace {length : Nat} {δ : Int} {w w' : Walker} (h : step length δ w = .ok w') :
    w'.pos = w.pos + δ ∧ w'.trace = w.trace ++ [w.pos + δ] := by
  simp only [step, moveTo] at h
  split at h
  · cases h
    exact ⟨rfl, rfl⟩
  · cases h

/-- Stepping backwards never returns to where it started, and forgets nothing. -/
theorem boundedLoop_back {length : Nat} {bound : Int} (n : Nat) {w w' : Walker} {r : Int}
    (h : boundedLoop length (-1) bound n w = .ok (w', r)) :
    w'.pos ≤ w.pos ∧ ∀ p ∈ w.trace, p ∈ w'.trace := by
  induction n generalizing w with
  | zero =>
    cases h
    exact ⟨Int.le_refl _, fun p hp => hp⟩
  | succ n ih =>
    rw [boundedLoop] at h
    split at h
    · obtain ⟨w₁, hstep, hrest⟩ := exec_bind_eq_ok.mp h
      obtain ⟨hpos, htrace⟩ := step_trace hstep
      obtain ⟨hle, hkeep⟩ := ih hrest
      exact ⟨by omega, fun p hp => hkeep p (by rw [htrace]; exact List.mem_append.mpr (.inl hp))⟩
    · cases h
      exact ⟨Int.le_refl _, fun p hp => hp⟩

/-- From the bound itself the do-while steps past it before it looks. -/
theorem doBackward_of_eq {length : Nat} {bound : Int} (m : Nat) {w w' : Walker} {r : Int}
    (h : w.pos = bound) (hrun : doBackward length bound m w = .ok (w', r)) :
    w'.pos < bound ∧ bound - 1 ∈ w'.trace := by
  rw [doBackward_eq] at hrun
  obtain ⟨w₁, hstep, hrest⟩ := exec_bind_eq_ok.mp hrun
  obtain ⟨hpos, htrace⟩ := step_trace hstep
  obtain ⟨hle, hkeep⟩ := boundedLoop_back m hrest
  refine ⟨by omega, hkeep _ ?_⟩
  rw [htrace, h]
  exact List.mem_append.mpr (.inr (List.mem_singleton.mpr rfl))

theorem advanceN_spec (t : IterTraits) {length : Nat} {i n : Int} (h0 : 0 ≤ i) (hl : i ≤ length)
    (h0' : 0 ≤ i + n) (hl' : i + n ≤ length) :
    ∃ w, advanceN t length ⟨i, []⟩ n = .ok w ∧ w.pos = i + n ∧
      ∀ p ∈ w.trace, Between i (i + n) p := by
  unfold advanceN
  split
  · exact ⟨_, moveTo_ok h0' hl', rfl, fun p hp => by
      rw [List.mem_singleton.mp hp]; unfold Between; dsimp only; omega⟩
  · have hloop : ∀ (δ : Int), δ = 1 ∨ δ = -1 → ∀ m : Nat, n = δ * m →
        ∃ w, stepLoop length δ m ⟨i, []⟩ = .ok w ∧ w.pos = i + n ∧
          ∀ p ∈ w.trace, Between i (i + n) p := by
      intro δ hδ m hm
      obtain ⟨w, hrun, hpos, hvisits⟩ := stepLoop_spec hδ m ⟨i, []⟩ h0 hl
        (by rw [← hm]; exact h0') (by rw [← hm]; exact hl')
      refine ⟨w, hrun, by rw [hpos, hm], fun p hp => ?_⟩
      rcases hvisits p hp with h | ⟨j, hj, rfl⟩
      · cases h
      · unfold Between
        rcases hδ with rfl | rfl <;> dsimp only <;> omega
    split
    · exact hloop (-1) (.inr rfl) _ (by omega)
    · exact hloop 1 (.inl rfl) _ (by omega)

/-- The sized branch is one piece of code in both language modes. -/
theorem bounded_sized (t : IterTraits) (ht : t.sizedSentinel = true) (length : Nat) (w : Walker)
    (n bound : Int) : bounded t length w n bound = advance t length w n bound := by
  simp only [bounded, advance, ht, if_true, ge_iff_le]

theorem advance_sized_law (t : IterTraits) (ht : t.sizedSentinel = true) {length : Nat}
    {i n b : Int} (h : Reaches length i n b) :
    BoundedLaw (advance t length ⟨i, []⟩ n b) i n b := by
  obtain ⟨hi, hil, hb, hbl, hfwd, hback⟩ := h
  unfold advance
  rw [if_pos ht]
  by_cases hn : n = 0
  · subst hn
    exact BoundedLaw.zero i b
  have hexpect : ¬ ¬ (if 0 ≤ n then 0 ≤ b - i else 0 ≥ b - i) := by
    rw [Decidable.not_not]
    split <;> omega
  rw [if_neg hn]
  dsimp only
  rw [if_neg hexpect]
  by_cases hreach : if 0 ≤ n then b - i ≤ n else b - i ≥ n
  · rw [if_pos hreach]
    have hnear : nearer i n b = b := by
      unfold nearer
      split at hreach <;> split <;> omega
    refine ⟨⟨b, [b]⟩, ?_, hnear.symm, fun p hp => ?_⟩
    · rw [moveTo_ok hb hbl, hnear]
      rfl
    · rw [List.mem_singleton.mp hp]
      unfold Between
      omega
  · rw [if_neg hreach]
    have hnear : nearer i n b = i + n := by
      unfold nearer
      split at hreach <;> split <;> omega
    obtain ⟨w, hrun, hpos, htrace⟩ := advanceN_spec t hi hil (n := n)
      (by split at hreach <;> omega) (by split at hreach <;> omega)
    refine ⟨w, ?_, hpos.trans hnear.symm, fun p hp => ?_⟩
    · rw [hrun, hnear]
      simp
    · have := htrace p hp
      unfold Between at this ⊢
      split at hreach <;> omega

/-- The older implementation meets the law on every input. -/
theorem bounded_law (t : IterTraits) {length : Nat} {i n b : Int} (h : Reaches length i n b) :
    BoundedLaw (bounded t length ⟨i, []⟩ n b) i n b := by
  cases ht : t.sizedSentinel with
  | true =>
    rw [bounded_sized t ht]
    exact advance_sized_law t ht h
  | false =>
    simp only [bounded, ht, Bool.false_eq_true, if_false]
    split
    next hn => exact whileForward_law h hn
    next hn => exact forBackward_law h (by omega)

/-- The one way to leave the law: stepping backwards from the bound. -/
theorem advance_past_bound (t : IterTraits) {length : Nat} {i n b : Int}
    (hno : ¬ (t.sizedSentinel = true ∨ 0 ≤ n ∨ b ≠ i)) {w : Walker} {r : Int}
    (hrun : advance t length ⟨i, []⟩ n b = .ok (w, r)) : w.pos < i ∧ i - 1 ∈ w.trace := by
  simp only [not_or, Bool.not_eq_true, Int.not_le, Decidable.not_not] at hno
  obtain ⟨ht, hn, rfl⟩ := hno
  simp only [advance, ht, Bool.false_eq_true, if_false, hn, if_true] at hrun
  exact doBackward_of_eq _ rfl hrun

theorem advance_law (t : IterTraits) {length : Nat} {i n b : Int} (h : Reaches length i n b)
    (hok : t.sizedSentinel = true ∨ 0 ≤ n ∨ b ≠ i) :
    BoundedLaw (advance t length ⟨i, []⟩ n b) i n b := by
  cases ht : t.sizedSentinel with
  | true => exact advance_sized_law t ht h
  | false =>
    simp only [ht, Bool.false_eq_true, false_or] at hok
    simp only [advance, ht, Bool.false_eq_true, if_false]
    split
    next hn =>
      have hcount : (-n - 1).toNat + 1 = (-n).toNat := by omega
      rw [doBackward_of_ne _ (by dsimp only; omega), hcount]
      exact forBackward_law h hn
    next hn => exact whileForward_law h (by omega)

theorem next_of_law {adv : Walker → Int → Int → Exec (Walker × Int)} {i n b : Int}
    (law : BoundedLaw (adv ⟨i, []⟩ n b) i n b) :
    ∃ w, next adv ⟨i, []⟩ n b = .ok w ∧ StopsNearer i n b w := by
  obtain ⟨w, hrun, hstop⟩ := law
  exact ⟨w, by simp [next, hrun], hstop⟩

theorem prev_eq_next (adv : Walker → Int → Int → Exec (Walker × Int)) (w : Walker) (n b : Int) :
    prev adv w (-n) b = next adv w n b := by
  rw [prev, next, Int.neg_neg]

/-- Two calls leave the iterator at the same place and return the same count. -/
def SameResult (x y : Exec (Walker × Int)) : Prop :=
  ∃ w w' r, x = .ok (w, r) ∧ y = .ok (w', r) ∧ w.pos = w'.pos

theorem next_advance_iff (t : IterTraits) {length : Nat} {i n b : Int} (h : Reaches length i n b) :
    (∃ w, next (advance t length) ⟨i, []⟩ n b = .ok w ∧ StopsNearer i n b w) ↔
      t.sizedSentinel = true ∨ 0 ≤ n ∨ b ≠ i := by
  constructor
  · rintro ⟨w, hrun, _, htrace⟩
    by_contra hno
    obtain ⟨⟨w', r⟩, hadv, hw⟩ := exec_bind_eq_ok.mp hrun
    cases hw
    have hpast := (advance_past_bound t hno hadv).2
    have := htrace _ hpast
    unfold Between at this
    omega
  · exact fun hok => next_of_law (advance_law t h hok)

end EARanges.Iterator
