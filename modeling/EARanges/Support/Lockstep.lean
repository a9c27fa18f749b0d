import EARanges.Support.Exec
import Mathlib.Data.List.Basic

/-!
# Traversals in lockstep

A product traversal moves one iterator per component, all by the same amount, between
the tuple of begins and the tuple of ends. `lens` lists the lengths of the components;
an iterator is an index, and moving one outside its component faults. `LockstepOver`
says that a traversal is such a product; what it can do forward holds for any lengths
(`LockstepOver.forwardLaw`), what it can do backward from the end needs equal lengths
or an empty component (`LockstepOver.backwardLaw_iff`).
-/
namespace EARanges.Support

/-! ## One step of every component -/

def incrTo (len it : Nat) : Exec Nat := if it < len then .ok (it + 1) else .error .fault

def decr (_ it : Nat) : Exec Nat := if 0 < it then .ok (it - 1) else .error .fault

theorem incrTo_ok {len it : Nat} (h : it < len) : incrTo len it = .ok (it + 1) := if_pos h

theorem decr_ok {len it : Nat} (h : 0 < it) : decr len it = .ok (it - 1) := if_pos h

theorem decr_succ (len it : Nat) : decr len (it + 1) = .ok it := decr_ok (Nat.succ_pos it)

def jump (n : Int) (len it : Nat) : Exec Nat :=
  if 0 ≤ (it : Int) + n ∧ (it : Int) + n ≤ len then .ok ((it : Int) + n).toNat else .error .fault

theorem jump_eq {n : Int} {len it target : Nat} (hn : (it : Int) + n = target)
    (htarget : target ≤ len) : jump n len it = .ok target := by
  rw [jump, if_pos (by omega), hn]
  rfl

/-- Applies a step to every iterator of a tuple. -/
def stepEach (f : Nat → Nat → Exec Nat) : List Nat → List Nat → Exec (List Nat)
  | len :: lens, it :: its => do
    let it ← f len it
    let its ← stepEach f lens its
    .ok (it :: its)
  | _, _ => .ok []

theorem stepEach_ok {f : Nat → Nat → Exec Nat} {g h : Nat → Nat} {lens : List Nat}
    (hf : ∀ len ∈ lens, f len (g len) = .ok (h len)) :
    stepEach f lens (lens.map g) = .ok (lens.map h) := by
  induction lens with
  | nil => rfl
  | cons len lens ih =>
    have hrest := ih fun l hl => hf l (List.mem_cons_of_mem _ hl)
    simp only [List.map_cons, stepEach, hf len (List.mem_cons_self ..), hrest, exec_bind_ok]

/-- One faulting component stops the tuple. -/
theorem stepEach_decr_fault {g : Nat → Nat} {lens : List Nat} (h : ∃ len ∈ lens, g len = 0) :
    stepEach decr lens (lens.map g) = .error .fault := by
  induction lens with
  | nil => simp at h
  | cons len lens ih =>
    simp only [List.map_cons, stepEach, decr]
    split
    next hpos =>
      have hrest : ∃ l ∈ lens, g l = 0 := by
        obtain ⟨l, hl, hzero⟩ := h
        cases List.mem_cons.mp hl with
        | inl heq => subst heq; omega
        | inr hl => exact ⟨l, hl, hzero⟩
      simp only [exec_bind_ok, ih hrest, exec_bind_error]
    next => rfl

/-! ## The least length -/

/-- The least of a non-empty list. -/
def minLength : List Nat → Nat
  | [] => 0
  | [len] => len
  | len :: lens => min len (minLength lens)

theorem minLength_le {lens : List Nat} {len : Nat} (h : len ∈ lens) : minLength lens ≤ len := by
  induction lens with
  | nil => simp at h
  | cons l lens ih =>
    cases lens with
    | nil =>
      rw [List.mem_singleton.mp h]
      exact Nat.le_refl l
    | cons l' lens =>
      simp only [minLength]
      cases List.mem_cons.mp h with
      | inl heq => subst heq; exact Nat.min_le_left _ _
      | inr hmem => exact Nat.le_trans (Nat.min_le_right _ _) (ih hmem)

theorem minLength_mem {lens : List Nat} (h : lens ≠ []) : minLength lens ∈ lens := by
  induction lens with
  | nil => exact absurd rfl h
  | cons l lens ih =>
    cases lens with
    | nil => exact List.mem_singleton.mpr rfl
    | cons l' lens =>
      have hmem := ih (List.cons_ne_nil _ _)
      simp only [minLength]
      cases Nat.le_total l (minLength (l' :: lens)) with
      | inl hle => rw [Nat.min_eq_left hle]; exact List.mem_cons_self ..
      | inr hle => rw [Nat.min_eq_right hle]; exact List.mem_cons_of_mem _ hmem

/-- All components have the same length. -/
def SameLengths (lens : List Nat) : Prop := ∀ len ∈ lens, len = minLength lens

instance (lens : List Nat) : Decidable (SameLengths lens) :=
  inferInstanceAs (Decidable (∀ len ∈ lens, len = minLength lens))

/-- Where the way back is as long as the way forth. -/
def Aligned (lens : List Nat) : Prop := SameLengths lens ∨ minLength lens = 0

instance (lens : List Nat) : Decidable (Aligned lens) :=
  inferInstanceAs (Decidable (_ ∨ _))

/-! ## Product traversals -/

/-- The cursor operations of a view; `its` is the tuple of iterators its elements are
made from. -/
structure Traversal (σ γ : Type) where
  beginCursor : σ
  endCursor : σ
  its : σ → List Nat
  read : σ → Exec γ
  next : σ → Exec σ
  prev : σ → Exec σ
  advance : σ → Int → Exec σ
  equal : σ → σ → Bool
  distanceTo : σ → σ → Int
  size : Nat

namespace Traversal

variable {σ γ : Type}

def stepMany (step : σ → Exec σ) : Nat → σ → Exec σ
  | 0, c => .ok c
  | count + 1, c => do
    let c ← stepMany step count c
    step c

theorem stepMany_succ {step : σ → Exec σ} {count : Nat} {c c' : σ}
    (h : stepMany step count c = .ok c') : stepMany step (count + 1) c = step c' := by
  rw [stepMany, h, exec_bind_ok]

/-- `j` steps from the beginning. -/
def forward (t : Traversal σ γ) (j : Nat) : Exec σ := stepMany t.next j t.beginCursor

/-- `k` steps back from the end. -/
def backward (t : Traversal σ γ) (k : Nat) : Exec σ := stepMany t.prev k t.endCursor

/-- The view has `m` elements, the `j`-th being `element j`. -/
structure ForwardLaw (t : Traversal σ γ) (m : Nat) (element : Nat → Option γ) : Prop where
  size_eq : t.size = m
  ends : ∀ j ≤ m, ∃ c, t.forward j = .ok c ∧ (t.equal c t.endCursor = true ↔ j = m)
  elements : ∀ j < m, ∃ c x, t.forward j = .ok c ∧ element j = some x ∧ t.read c = .ok x

/-- Decrementing the end `k` times gives the `(m-k)`-th element of the way forth: the
same tuple of iterators, whatever is made from it. -/
def BackwardLaw (t : Traversal σ γ) (m : Nat) : Prop :=
  ∀ k, 1 ≤ k → k ≤ m → ∃ c d, t.backward k = .ok c ∧ t.forward (m - k) = .ok d ∧ t.its c = t.its d

/-- The cursors met on the way forth, the jump over it, and the end. -/
def OnPath (t : Traversal σ γ) (m : Nat) (c : σ) : Prop :=
  (∃ j ≤ m, t.forward j = .ok c) ∨ t.advance t.beginCursor m = .ok c ∨ c = t.endCursor

/-- The jump over the view, `m` steps, and the end have the same predecessor, and
distances add up along the path. -/
structure JumpLaw (t : Traversal σ γ) (m : Nat) : Prop where
  jump_predecessor : ∃ c, t.advance t.beginCursor m = .ok c ∧
    (t.prev c).map t.its = (t.prev t.endCursor).map t.its
  step_predecessor : ∃ c, t.forward m = .ok c ∧
    (t.prev c).map t.its = (t.prev t.endCursor).map t.its
  additive : ∀ p q r, OnPath t m p → OnPath t m q → OnPath t m r →
    t.distanceTo p r = t.distanceTo p q + t.distanceTo q r

/-- The traversal is the product of components with these lengths. -/
structure LockstepOver (t : Traversal σ γ) (lens : List Nat) : Prop where
  nonempty : lens ≠ []
  begin_its : t.its t.beginCursor = lens.map fun _ => 0
  end_its : t.its t.endCursor = lens.map id
  next_its : ∀ c, (t.next c).map t.its = stepEach incrTo lens (t.its c)
  prev_its : ∀ c, (t.prev c).map t.its = stepEach decr lens (t.its c)
  advance_its : ∀ c n, (t.advance c n).map t.its = stepEach (jump n) lens (t.its c)
  equal_its : ∀ c d, t.equal c d = (List.zipWith (· == ·) (t.its c) (t.its d)).any id

theorem map_eq_ok {α β : Type} {f : α → β} {x : Exec α} {b : β} (h : x.map f = .ok b) :
    ∃ a, x = .ok a ∧ f a = b := by
  cases x with
  | error e => cases h
  | ok a => exact ⟨a, rfl, Except.ok.inj h⟩

variable {t : Traversal σ γ} {lens : List Nat}

theorem LockstepOver.step {f : Nat → Nat → Exec Nat} {step : σ → Exec σ} {g h : Nat → Nat} {c : σ}
    (hstep : ∀ c, (step c).map t.its = stepEach f lens (t.its c)) (hc : t.its c = lens.map g)
    (hf : ∀ len ∈ lens, f len (g len) = .ok (h len)) :
    ∃ c', step c = .ok c' ∧ t.its c' = lens.map h := by
  have hmap := hstep c
  rw [hc, stepEach_ok hf] at hmap
  exact map_eq_ok hmap

theorem LockstepOver.forward_spec (ht : LockstepOver t lens) {j : Nat} (hj : j ≤ minLength lens) :
    ∃ c, t.forward j = .ok c ∧ t.its c = lens.map fun _ => j := by
  induction j with
  | zero => exact ⟨_, rfl, ht.begin_its⟩
  | succ j ih =>
    obtain ⟨c, hrun, hits⟩ := ih (by omega)
    have hincr : ∀ len ∈ lens, incrTo len j = .ok (j + 1) := by
      intro len hlen
      have := minLength_le hlen
      exact if_pos (by omega)
    obtain ⟨c', hnext, hits'⟩ := LockstepOver.step ht.next_its hits hincr
    exact ⟨c', (stepMany_succ hrun).trans hnext, hits'⟩

theorem LockstepOver.backward_spec (ht : LockstepOver t lens) {k : Nat}
    (hk : k ≤ minLength lens) :
    ∃ c, t.backward k = .ok c ∧ t.its c = lens.map fun len => len - k := by
  induction k with
  | zero => exact ⟨_, rfl, ht.end_its⟩
  | succ k ih =>
    obtain ⟨c, hrun, hits⟩ := ih (by omega)
    have hdecr : ∀ len ∈ lens, decr len (len - k) = .ok (len - (k + 1)) := by
      intro len hlen
      have := minLength_le hlen
      rw [decr_ok (by omega), Nat.sub_sub]
    obtain ⟨c', hprev, hits'⟩ := LockstepOver.step ht.prev_its hits hdecr
    exact ⟨c', (stepMany_succ hrun).trans hprev, hits'⟩

theorem LockstepOver.jump_spec (ht : LockstepOver t lens) :
    ∃ c, t.advance t.beginCursor (minLength lens) = .ok c ∧
      t.its c = lens.map fun _ => minLength lens := by
  have hjump : ∀ len ∈ lens, jump (minLength lens) len 0 = .ok (minLength lens) := by
    intro len hlen
    have := minLength_le hlen
    rw [jump, if_pos (by omega)]
    congr 1
    omega
  exact LockstepOver.step (ht.advance_its · _) ht.begin_its hjump

/-- A cursor of the way forth meets the end when its shortest component does. -/
theorem LockstepOver.equal_end (ht : LockstepOver t lens) {c : σ} {j : Nat}
    (hj : j ≤ minLength lens) (hc : t.its c = lens.map fun _ => j) :
    t.equal c t.endCursor = true ↔ j = minLength lens := by
  rw [ht.equal_its, hc, ht.end_its, List.zipWith_map, List.zipWith_self, List.any_map,
    List.any_eq_true]
  simp only [Function.comp, id, beq_iff_eq]
  constructor
  · rintro ⟨len, hlen, rfl⟩
    exact Nat.le_antisymm hj (minLength_le hlen)
  · intro heq
    exact ⟨minLength lens, minLength_mem ht.nonempty, heq⟩

theorem LockstepOver.forwardLaw (ht : LockstepOver t lens) {element : Nat → Option γ}
    (hsize : t.size = minLength lens)
    (hread : ∀ j < minLength lens, ∀ c, t.its c = lens.map (fun _ => j) →
      ∃ x, element j = some x ∧ t.read c = .ok x) :
    ForwardLaw t (minLength lens) element := by
  refine ⟨hsize, fun j hj => ?_, fun j hj => ?_⟩
  · obtain ⟨c, hrun, hits⟩ := ht.forward_spec hj
    exact ⟨c, hrun, ht.equal_end hj hits⟩
  · obtain ⟨c, hrun, hits⟩ := ht.forward_spec (Nat.le_of_lt hj)
    obtain ⟨x, helem, hval⟩ := hread j hj c hits
    exact ⟨c, x, hrun, helem, hval⟩

theorem map_eq_map_iff {g h : Nat → Nat} :
    lens.map g = lens.map h ↔ ∀ len ∈ lens, g len = h len := List.map_inj_left

theorem LockstepOver.backwardLaw_iff (ht : LockstepOver t lens) :
    BackwardLaw t (minLength lens) ↔ Aligned lens := by
  constructor
  · intro law
    by_cases hzero : minLength lens = 0
    · exact .inr hzero
    · obtain ⟨c, d, hback, hfwd, hsame⟩ := law 1 (Nat.le_refl 1) (by omega)
      obtain ⟨c', hback', hits⟩ := ht.backward_spec (k := 1) (by omega)
      obtain ⟨d', hfwd', hits'⟩ := ht.forward_spec (j := minLength lens - 1) (by omega)
      cases hback.symm.trans hback'
      cases hfwd.symm.trans hfwd'
      rw [hits, hits', map_eq_map_iff] at hsame
      apply Or.inl
      intro len hlen
      have := hsame len hlen
      have := minLength_le hlen
      omega
  · intro haligned k hpos hk
    obtain ⟨c, hback, hits⟩ := ht.backward_spec hk
    obtain ⟨d, hfwd, hits'⟩ := ht.forward_spec (j := minLength lens - k) (by omega)
    refine ⟨c, d, hback, hfwd, ?_⟩
    rw [hits, hits', map_eq_map_iff]
    intro len hlen
    cases haligned with
    | inl hsame => rw [hsame len hlen]
    | inr hzero => omega

/-- Every cursor of the path lies at one index in all components, or is the end. -/
theorem LockstepOver.onPath_its (ht : LockstepOver t lens) {c : σ}
    (h : OnPath t (minLength lens) c) :
    (∃ j ≤ minLength lens, t.its c = lens.map fun _ => j) ∨ t.its c = lens.map id := by
  obtain ⟨j, hj, hrun⟩ | hjump | rfl := h
  · obtain ⟨c', hrun', hits⟩ := ht.forward_spec hj
    cases hrun.symm.trans hrun'
    exact .inl ⟨j, hj, hits⟩
  · obtain ⟨c', hrun', hits⟩ := ht.jump_spec
    cases hjump.symm.trans hrun'
    exact .inl ⟨_, Nat.le_refl _, hits⟩
  · exact .inr ht.end_its

/-- The predecessors agree exactly for aligned components. -/
theorem LockstepOver.predecessor_iff (ht : LockstepOver t lens) {c : σ}
    (hc : t.its c = lens.map fun _ => minLength lens) :
    (t.prev c).map t.its = (t.prev t.endCursor).map t.its ↔ Aligned lens := by
  rw [ht.prev_its, ht.prev_its, hc, ht.end_its]
  by_cases hzero : minLength lens = 0
  · have hmem := minLength_mem ht.nonempty
    have hfault : ∃ len ∈ lens, id len = 0 := ⟨_, hmem, hzero⟩
    rw [stepEach_decr_fault ⟨_, hmem, hzero⟩, stepEach_decr_fault hfault]
    simp only [Aligned, hzero, or_true]
  · have hdecr : ∀ len ∈ lens, decr len (minLength lens) = .ok (minLength lens - 1) :=
      fun _ _ => if_pos (by omega)
    have hdecr' : ∀ len ∈ lens, decr len (id len) = .ok (len - 1) := by
      intro len hlen
      have := minLength_le hlen
      exact if_pos (by simp only [id]; omega)
    rw [stepEach_ok hdecr, stepEach_ok hdecr', Except.ok.injEq, map_eq_map_iff]
    simp only [Aligned, hzero, or_false, SameLengths]
    refine forall_congr' fun len => forall_congr' fun hlen => ?_
    have := minLength_le hlen
    omega

/-- If distances are differences of one measure along the path, they add up. -/
theorem LockstepOver.jumpLaw_of_measure (ht : LockstepOver t lens) (haligned : Aligned lens)
    (measure : σ → Int)
    (hdist : ∀ p q, OnPath t (minLength lens) p → OnPath t (minLength lens) q →
      t.distanceTo p q = measure q - measure p) : JumpLaw t (minLength lens) := by
  obtain ⟨c, hrun, hits⟩ := ht.jump_spec
  obtain ⟨d, hrun', hits'⟩ := ht.forward_spec (Nat.le_refl (minLength lens))
  refine ⟨⟨c, hrun, (ht.predecessor_iff hits).mpr haligned⟩,
    ⟨d, hrun', (ht.predecessor_iff hits').mpr haligned⟩, fun p q r hp hq hr => ?_⟩
  rw [hdist p r hp hr, hdist p q hp hq, hdist q r hq hr]
  omega

theorem LockstepOver.aligned_of_jumpLaw (ht : LockstepOver t lens)
    (law : JumpLaw t (minLength lens)) : Aligned lens := by
  obtain ⟨c, hrun, hsame⟩ := law.jump_predecessor
  obtain ⟨c', hrun', hits⟩ := ht.jump_spec
  cases hrun.symm.trans hrun'
  exact (ht.predecessor_iff hits).mp hsame

end Traversal

end EARanges.Support
