import EARanges.Support.Lockstep

/-!
# Loops over a range

`for(it = begin; it != end; ++it) use(*it)` as a state with four operations. What such
a loop reads is settled by numbering its states: `Numbers l xs At` says that a state
`At i` stands before the `i`-th of `xs`, that the first state is number 0 and that a
step leads from `i` to `i + 1`. From it `Numbers.delivers` concludes that the loop ends
having read `xs`, and `collectBack_eq` what the way back from the end reads.
-/
namespace EARanges.Support

structure Loop (σ γ : Type) where
  start : Exec σ
  atEnd : σ → Exec Bool
  read : σ → Exec γ
  next : σ → Exec σ

namespace Loop

variable {σ γ : Type}

/-- What the loop reads from a state on. -/
def collect (l : Loop σ γ) : Nat → σ → Exec (List γ)
  | 0, _ => .error .fuel
  | fuel + 1, s => do
    if ← l.atEnd s then .ok []
    else
      let x ← l.read s
      let s ← l.next s
      let xs ← collect l fuel s
      .ok (x :: xs)

def elements (l : Loop σ γ) (fuel : Nat) : Exec (List γ) := do
  let s ← l.start
  l.collect fuel s

/-- The first `count` elements from a state on, or all if there are fewer. -/
def collectFirst (l : Loop σ γ) : Nat → σ → Exec (List γ)
  | 0, _ => .ok []
  | count + 1, s => do
    if ← l.atEnd s then .ok []
    else
      let x ← l.read s
      let s ← l.next s
      let xs ← collectFirst l count s
      .ok (x :: xs)

def firstElements (l : Loop σ γ) (count : Nat) : Exec (List γ) := do
  let s ← l.start
  l.collectFirst count s

/-- The loop ends, having read `xs`. -/
def Delivers (l : Loop σ γ) (xs : List γ) : Prop := Returns l.elements xs

/-- The state after `i` steps. -/
def nth (l : Loop σ γ) (i : Nat) : Exec σ := do
  let s ← l.start
  Traversal.stepMany l.next i s

/-- `n` single steps, backwards for negative `n`. -/
def steps (next prev : σ → Exec σ) (n : Int) (s : σ) : Exec σ :=
  if 0 ≤ n then Traversal.stepMany next n.toNat s else Traversal.stepMany prev (-n).toNat s

/-- `count` steps back, reading after each. -/
def collectBack (prev : σ → Exec σ) (read : σ → Exec γ) : Nat → σ → Exec (List γ)
  | 0, _ => .ok []
  | count + 1, s => do
    let s ← prev s
    let x ← read s
    let xs ← collectBack prev read count s
    .ok (x :: xs)

/-- `At i` holds of the states `i` steps from the first, for the numbers up to `m`. -/
structure Numbering (l : Loop σ γ) (m : Nat) (At : Nat → σ → Prop) : Prop where
  start : ∃ s, l.start = .ok s ∧ At 0 s
  next : ∀ i s, At i s → i < m → ∃ s', l.next s = .ok s' ∧ At (i + 1) s'

/-- The states numbered `i` stand before the `i`-th element. -/
structure Numbers (l : Loop σ γ) (xs : List γ) (At : Nat → σ → Prop) : Prop extends
    Numbering l xs.length At where
  atEnd : ∀ i s, At i s → l.atEnd s = .ok (decide (i = xs.length))
  read : ∀ i s x, At i s → xs[i]? = some x → l.read s = .ok x

variable {l : Loop σ γ} {xs : List γ} {At : Nat → σ → Prop}

theorem Numbers.collect_eq (h : Numbers l xs At) (count extra : Nat) {i : Nat} {s : σ}
    (hat : At i s) (hcount : i + count = xs.length) :
    l.collect (count + 1 + extra) s = .ok (xs.drop i) := by
  induction count generalizing i s with
  | zero =>
    have hend := h.atEnd i s hat
    rw [decide_eq_true (by omega : i = xs.length)] at hend
    rw [Nat.zero_add, Nat.add_comm 1 extra, collect, hend,
      List.drop_of_length_le (by omega : xs.length ≤ i)]
    rfl
  | succ count ih =>
    have hlt : i < xs.length := by omega
    have hend := h.atEnd i s hat
    rw [decide_eq_false (by omega : ¬ i = xs.length)] at hend
    have hread := h.read i s xs[i] hat (List.getElem?_eq_getElem hlt)
    obtain ⟨s', hnext, hat'⟩ := h.next i s hat hlt
    have hrest := ih hat' (by omega)
    rw [Nat.add_right_comm, collect, hend, List.drop_eq_getElem_cons hlt]
    simp only [exec_bind_ok, Bool.false_eq_true, if_false, hread, hnext, hrest]

theorem Numbers.delivers (h : Numbers l xs At) : Delivers l xs := by
  obtain ⟨s, hstart, hat⟩ := h.start
  apply Returns.of_forall (xs.length + 1)
  intro extra
  rw [elements, hstart]
  exact h.collect_eq xs.length extra hat (Nat.zero_add _)

theorem Numbers.collectFirst_eq (h : Numbers l xs At) (count : Nat) {i : Nat} {s : σ}
    (hat : At i s) (hi : i ≤ xs.length) :
    l.collectFirst count s = .ok ((xs.drop i).take count) := by
  induction count generalizing i s with
  | zero => rfl
  | succ count ih =>
    have hend := h.atEnd i s hat
    rw [collectFirst, hend, exec_bind_ok]
    by_cases heq : i = xs.length
    · rw [if_pos (decide_eq_true heq), List.drop_of_length_le (Nat.le_of_eq heq.symm),
        List.take_nil]
    · have hlt : i < xs.length := Nat.lt_of_le_of_ne hi heq
      have hread := h.read i s xs[i] hat (List.getElem?_eq_getElem hlt)
      obtain ⟨s', hnext, hat'⟩ := h.next i s hat hlt
      rw [if_neg (by simp [heq]), hread, exec_bind_ok, hnext, exec_bind_ok, ih hat' hlt,
        List.drop_eq_getElem_cons hlt]
      rfl

/-- A loop that is left early has read the first elements. -/
theorem Numbers.firstElements_eq (h : Numbers l xs At) (count : Nat) :
    l.firstElements count = .ok (xs.take count) := by
  obtain ⟨s, hstart, hat⟩ := h.start
  rw [firstElements, hstart, exec_bind_ok, h.collectFirst_eq count hat (Nat.zero_le _)]
  rfl

/-- If `prev` leads from number `i + 1` to number `i`, the way back reads the elements
in reverse. -/
theorem collectBack_eq {prev : σ → Exec σ} {read : σ → Exec γ}
    (hread : ∀ i s x, At i s → xs[i]? = some x → read s = .ok x)
    (hprev : ∀ i s, At (i + 1) s → i < xs.length → ∃ s', prev s = .ok s' ∧ At i s')
    {i : Nat} {s : σ} (hat : At i s) (hi : i ≤ xs.length) :
    collectBack prev read i s = .ok (xs.take i).reverse := by
  induction i generalizing s with
  | zero => rfl
  | succ i ih =>
    obtain ⟨s', hrun, hat'⟩ := hprev i s hat hi
    have hval := hread i s' xs[i] hat' (List.getElem?_eq_getElem hi)
    rw [collectBack, hrun, List.take_succ_eq_append_getElem hi, List.reverse_append]
    simp only [exec_bind_ok, hval, ih hat' (Nat.le_of_lt hi)]
    rfl

theorem stepMany_eq {step : σ → Exec σ} (state : Nat → σ) {count : Nat}
    (h : ∀ k < count, step (state k) = .ok (state (k + 1))) :
    Traversal.stepMany step count (state 0) = .ok (state count) := by
  induction count with
  | zero => rfl
  | succ count ih =>
    have hrun := ih fun k hk => h k (Nat.lt_succ_of_lt hk)
    exact (Traversal.stepMany_succ hrun).trans (h count (Nat.lt_succ_self count))

/-! ## Single steps and jumps -/

section
variable {m : Nat} {step prev : σ → Exec σ}

/-- `k` steps of 1 from number `i`. -/
theorem stepMany_forward (hstep : ∀ i s, At i s → i < m → ∃ s', step s = .ok s' ∧ At (i + 1) s')
    {i k : Nat} {s : σ} (hat : At i s) (hk : i + k ≤ m) :
    ∃ s', Traversal.stepMany step k s = .ok s' ∧ At (i + k) s' := by
  induction k with
  | zero => exact ⟨s, rfl, hat⟩
  | succ k ih =>
    obtain ⟨s', hrun, hat'⟩ := ih (by omega)
    obtain ⟨s'', hlast, hat''⟩ := hstep (i + k) s' hat' hk
    exact ⟨s'', (Traversal.stepMany_succ hrun).trans hlast, hat''⟩

/-- `k` steps of -1 from number `i`. -/
theorem stepMany_backward
    (hprev : ∀ i s, At (i + 1) s → i < m → ∃ s', prev s = .ok s' ∧ At i s')
    {i k : Nat} {s : σ} (hat : At i s) (hi : i ≤ m) (hk : k ≤ i) :
    ∃ s', Traversal.stepMany prev k s = .ok s' ∧ At (i - k) s' := by
  induction k with
  | zero => exact ⟨s, rfl, hat⟩
  | succ k ih =>
    obtain ⟨s', hrun, hat'⟩ := ih (by omega)
    have hindex : i - k = i - (k + 1) + 1 := by omega
    rw [hindex] at hat'
    obtain ⟨s'', hlast, hat''⟩ := hprev (i - (k + 1)) s' hat' (by omega)
    exact ⟨s'', (Traversal.stepMany_succ hrun).trans hlast, hat''⟩

end

section
variable {m : Nat} {prev : σ → Exec σ}

theorem Numbering.nth_eq (h : Numbering l m At) {i : Nat} (hi : i ≤ m) :
    ∃ s, l.nth i = .ok s ∧ At i s := by
  obtain ⟨s₀, hstart, hat₀⟩ := h.start
  obtain ⟨s, hrun, hat⟩ := stepMany_forward h.next hat₀ (Nat.zero_add i ▸ hi)
  rw [Nat.zero_add] at hat
  exact ⟨s, by rw [nth, hstart, exec_bind_ok, hrun], hat⟩

/-- Single steps between numbered states. -/
theorem Numbering.steps_eq (h : Numbering l m At)
    (hprev : ∀ i s, At (i + 1) s → i < m → ∃ s', prev s = .ok s' ∧ At i s')
    {i j : Nat} {s : σ} (hat : At i s) (hi : i ≤ m) (hj : j ≤ m) :
    ∃ s', steps l.next prev ((j : Int) - i) s = .ok s' ∧ At j s' := by
  unfold steps
  split
  next hle =>
    have hcount : i + ((j : Int) - i).toNat = j := by omega
    have hrun := stepMany_forward h.next (k := ((j : Int) - i).toNat) hat (by omega)
    rwa [hcount] at hrun
  next hlt =>
    have hcount : i - (-((j : Int) - i)).toNat = j := by omega
    have hrun := stepMany_backward (k := (-((j : Int) - i)).toNat) hprev hat hi (by omega)
    rwa [hcount] at hrun

end

/-- Up to the end, number `m`, a step forward is undone by a step back. -/
def PrevUndoesNext (l : Loop σ γ) (prev : σ → Exec σ) (m : Nat) : Prop :=
  ∀ i < m, ∃ s s', l.nth i = .ok s ∧ l.nth (i + 1) = .ok s' ∧ l.next s = .ok s' ∧ prev s' = .ok s

/-- A jump leads where as many single steps do, from any number to any other. -/
def JumpsAreSteps (l : Loop σ γ) (prev : σ → Exec σ) (advance : Int → σ → Exec σ) (m : Nat)
    (inDomain : Int → Prop) : Prop :=
  ∀ i ≤ m, ∀ j ≤ m, inDomain ((j : Int) - i) → ∃ s s', l.nth i = .ok s ∧ l.nth j = .ok s' ∧
    advance ((j : Int) - i) s = .ok s' ∧ steps l.next prev ((j : Int) - i) s = .ok s'

/-- The distance between two states is the number of steps between them. -/
def DistancesAreSteps (l : Loop σ γ) (distanceTo : σ → σ → Exec Int) (m : Nat)
    (inDomain : Int → Prop) : Prop :=
  ∀ i ≤ m, ∀ j ≤ m, inDomain ((j : Int) - i) → ∃ s s', l.nth i = .ok s ∧ l.nth j = .ok s' ∧
    distanceTo s s' = .ok ((j : Int) - i)

/-- Two states compare equal when they have the same number, and only then. -/
def EqualsArePositions (l : Loop σ γ) (equal : σ → σ → Bool) (m : Nat) : Prop :=
  ∀ i ≤ m, ∀ j ≤ m, ∃ s s', l.nth i = .ok s ∧ l.nth j = .ok s' ∧ (equal s s' = true ↔ i = j)

section
variable {m : Nat} {prev : σ → Exec σ} {advance : Int → σ → Exec σ}
  {distanceTo : σ → σ → Exec Int} {inDomain : Int → Prop}

theorem Numbering.prevUndoesNext (h : Numbering l m At)
    (hunique : ∀ i s s', At i s → At i s' → s = s')
    (hprev : ∀ i s, At (i + 1) s → i < m → ∃ s', prev s = .ok s' ∧ At i s') :
    PrevUndoesNext l prev m := by
  intro i hi
  obtain ⟨s, hs, hat⟩ := h.nth_eq (Nat.le_of_lt hi)
  obtain ⟨s', hs', hat'⟩ := h.nth_eq hi
  obtain ⟨t, hnext, hat₁⟩ := h.next i s hat hi
  obtain ⟨t', hback, hat₂⟩ := hprev i s' hat' hi
  rw [hunique (i + 1) t s' hat₁ hat'] at hnext
  rw [hunique i t' s hat₂ hat] at hback
  exact ⟨s, s', hs, hs', hnext, hback⟩

theorem Numbering.jumpsAreSteps (h : Numbering l m At)
    (hunique : ∀ i s s', At i s → At i s' → s = s')
    (hprev : ∀ i s, At (i + 1) s → i < m → ∃ s', prev s = .ok s' ∧ At i s')
    (hadvance : ∀ i j s, At i s → i ≤ m → j ≤ m → inDomain ((j : Int) - i) →
      ∃ s', advance ((j : Int) - i) s = .ok s' ∧ At j s') :
    JumpsAreSteps l prev advance m inDomain := by
  intro i hi j hj hin
  obtain ⟨s, hs, hat⟩ := h.nth_eq hi
  obtain ⟨s', hs', hat'⟩ := h.nth_eq hj
  obtain ⟨t, hjump, hat₁⟩ := hadvance i j s hat hi hj hin
  obtain ⟨t', hsteps, hat₂⟩ := h.steps_eq hprev hat hi hj
  rw [hunique j t s' hat₁ hat'] at hjump
  rw [hunique j t' s' hat₂ hat'] at hsteps
  exact ⟨s, s', hs, hs', hjump, hsteps⟩

theorem Numbering.distancesAreSteps (h : Numbering l m At)
    (hdistance : ∀ i j s s', At i s → At j s' → i ≤ m → j ≤ m → inDomain ((j : Int) - i) →
      distanceTo s s' = .ok ((j : Int) - i)) :
    DistancesAreSteps l distanceTo m inDomain := by
  intro i hi j hj hin
  obtain ⟨s, hs, hat⟩ := h.nth_eq hi
  obtain ⟨s', hs', hat'⟩ := h.nth_eq hj
  exact ⟨s, s', hs, hs', hdistance i j s s' hat hat' hi hj hin⟩

theorem Numbering.equalsArePositions (h : Numbering l m At) {equal : σ → σ → Bool}
    (hequal : ∀ i j s s', At i s → At j s' → i ≤ m → j ≤ m → (equal s s' = true ↔ i = j)) :
    EqualsArePositions l equal m := by
  intro i hi j hj
  obtain ⟨s, hs, hat⟩ := h.nth_eq hi
  obtain ⟨s', hs', hat'⟩ := h.nth_eq hj
  exact ⟨s, s', hs, hs', hequal i j s s' hat hat' hi hj⟩

end

/-- A loop that cannot start delivers nothing. -/
theorem not_delivers_of_start {e : Stop} (h : l.start = .error e) : ¬ Delivers l xs := by
  rintro ⟨bound, hrun⟩
  have hstop := hrun bound (Nat.le_refl bound)
  rw [elements, h] at hstop
  cases hstop

end Loop

end EARanges.Support
