import EARanges.View.ZipWith

/-!
# `iter_transform2_view`

view/transform.hpp, the two-range `views::transform`, for common bases. It repeats the
scheme of view/zip_with.hpp on a pair of iterators, with a distance of its own that
does not single out the zero difference. `transform2_zip_traversal` puts the two views
side by side.
-/
namespace EARanges.View
open EARanges.Support

structure IterTransform2View (α β γ : Type) where
  rng1 : Base α
  rng2 : Base β
  fn : α → β → γ

/-- `iter_transform2_view::cursor`. -/
structure Transform2Cursor where
  it1 : Nat
  it2 : Nat
  deriving DecidableEq, Repr

namespace IterTransform2View

def transform2Cardinality (c1 c2 : Int) : Int :=
  if 0 ≤ c1 ∨ 0 ≤ c2 then
    if 0 ≤ c1 ∧ 0 ≤ c2 then (if c1 < c2 then c1 else c2) else finite
  else if c1 = finite ∨ c2 = finite then finite
  else if c1 = unknown ∨ c2 = unknown then unknown
  else infinite

variable {α β γ : Type}

def lens (v : IterTransform2View α β γ) : List Nat := [v.rng1.length, v.rng2.length]

def myCardinality (v : IterTransform2View α β γ) : Int :=
  transform2Cardinality v.rng1.cardinality v.rng2.cardinality

def beginCursor (_ : IterTransform2View α β γ) : Transform2Cursor := ⟨0, 0⟩

def endCursor (v : IterTransform2View α β γ) : Transform2Cursor := ⟨v.rng1.length, v.rng2.length⟩

/-- `invoke(fun_, it1_, it2_)` with `fun_` an `indirected` function. -/
def read (v : IterTransform2View α β γ) (c : Transform2Cursor) : Exec γ := do
  let x ← deref v.rng1.elems c.it1
  let y ← deref v.rng2.elems c.it2
  .ok (v.fn x y)

def next (v : IterTransform2View α β γ) (c : Transform2Cursor) : Exec Transform2Cursor := do
  let it1 ← incrTo v.rng1.length c.it1
  let it2 ← incrTo v.rng2.length c.it2
  .ok { it1, it2 }

def equal (c that : Transform2Cursor) : Bool := c.it1 == that.it1 || c.it2 == that.it2

def prev (v : IterTransform2View α β γ) (c : Transform2Cursor) : Exec Transform2Cursor := do
  let it1 ← decr v.rng1.length c.it1
  let it2 ← decr v.rng2.length c.it2
  .ok { it1, it2 }

def advance (v : IterTransform2View α β γ) (c : Transform2Cursor) (n : Int) :
    Exec Transform2Cursor := do
  let it1 ← jump n v.rng1.length c.it1
  let it2 ← jump n v.rng2.length c.it2
  .ok { it1, it2 }

def distanceTo (c that : Transform2Cursor) : Int :=
  let d1 : Int := that.it1 - c.it1
  let d2 : Int := that.it2 - c.it2
  if 0 < d1 then min d1 d2 else max d1 d2

/-- The static `size()`, or `size_` where there is none. -/
def size (v : IterTransform2View α β γ) : Nat :=
  if 0 ≤ v.myCardinality then v.myCardinality.toNat else min v.rng1.length v.rng2.length

def element (v : IterTransform2View α β γ) (k : Nat) : Option γ := do
  let x ← v.rng1.elems[k]?
  let y ← v.rng2.elems[k]?
  some (v.fn x y)

def traversal (v : IterTransform2View α β γ) : Traversal Transform2Cursor γ where
  beginCursor := v.beginCursor
  endCursor := v.endCursor
  its c := [c.it1, c.it2]
  read := v.read
  next := v.next
  prev := v.prev
  advance := v.advance
  equal := equal
  distanceTo := distanceTo
  size := v.size

theorem stepEach_pair (f : Nat → Nat → Exec Nat) (len1 len2 it1 it2 : Nat) :
    (do
      let it1 ← f len1 it1
      let it2 ← f len2 it2
      Except.ok (Transform2Cursor.mk it1 it2)).map (fun c : Transform2Cursor => [c.it1, c.it2]) =
    stepEach f [len1, len2] [it1, it2] := by
  simp only [stepEach]
  cases f len1 it1 <;> cases f len2 it2 <;> rfl

theorem lockstep (v : IterTransform2View α β γ) : Traversal.LockstepOver v.traversal v.lens where
  nonempty := List.cons_ne_nil _ _
  begin_its := rfl
  end_its := rfl
  next_its c := stepEach_pair incrTo _ _ c.it1 c.it2
  prev_its c := stepEach_pair decr _ _ c.it1 c.it2
  advance_its c n := stepEach_pair (jump n) _ _ c.it1 c.it2
  equal_its c d := by
    simp only [traversal, equal, List.zipWith_cons_cons, List.zipWith_nil_left, List.any_cons,
      List.any_nil, id, Bool.or_false]

theorem minLength_lens (v : IterTransform2View α β γ) :
    minLength v.lens = min v.rng1.length v.rng2.length := rfl

theorem myCardinality_static (v : IterTransform2View α β γ) (h : 0 ≤ v.myCardinality) :
    v.myCardinality = min v.rng1.length v.rng2.length := by
  have h1 := v.rng1.cardinality_ok
  have h2 := v.rng2.cardinality_ok
  unfold myCardinality transform2Cardinality at h ⊢
  by_cases hor : 0 ≤ v.rng1.cardinality ∨ 0 ≤ v.rng2.cardinality
  · rw [if_pos hor] at h ⊢
    by_cases hand : 0 ≤ v.rng1.cardinality ∧ 0 ≤ v.rng2.cardinality
    · rw [if_pos hand]
      simp only [finite, unknown] at h1 h2
      unfold Base.length
      split <;> omega
    · rw [if_neg hand] at h
      exact absurd h (by decide)
  · rw [if_neg hor] at h
    split at h
    · exact absurd h (by decide)
    · split at h <;> exact absurd h (by decide)

theorem size_eq (v : IterTransform2View α β γ) : v.size = minLength v.lens := by
  rw [minLength_lens]
  unfold size
  split
  next hcard =>
    have := v.myCardinality_static hcard
    omega
  next => rfl

theorem forwardLaw (v : IterTransform2View α β γ) :
    Traversal.ForwardLaw v.traversal (minLength v.lens) v.element := by
  apply v.lockstep.forwardLaw v.size_eq
  intro j hj c hc
  have hits : [c.it1, c.it2] = [j, j] := hc
  simp only [List.cons.injEq, and_true] at hits
  rw [minLength_lens] at hj
  have h1 : j < v.rng1.elems.length := Nat.lt_of_lt_of_le hj (Nat.min_le_left _ _)
  have h2 : j < v.rng2.elems.length := Nat.lt_of_lt_of_le hj (Nat.min_le_right _ _)
  refine ⟨v.fn v.rng1.elems[j] v.rng2.elems[j], ?_, ?_⟩
  · simp [element, h1, h2]
  · simp [traversal, read, deref, hits, h1, h2]

theorem sameLengths_iff (v : IterTransform2View α β γ) :
    SameLengths v.lens ↔ v.rng1.length = v.rng2.length := by
  have hmin := v.minLength_lens
  unfold SameLengths
  rw [hmin]
  simp only [lens, List.forall_mem_cons, List.not_mem_nil, false_implies, implies_true, and_true]
  omega

/-- Where the distances add up too: also an empty second range, but not an empty first
one, from which the end of the second seems away. -/
theorem jumpLaw_iff (v : IterTransform2View α β γ) :
    Traversal.JumpLaw v.traversal (minLength v.lens) ↔
      v.rng1.length = v.rng2.length ∨ v.rng2.length = 0 := by
  have hmin := v.minLength_lens
  constructor
  · intro law
    obtain hsame | hzero := v.lockstep.aligned_of_jumpLaw law
    · exact .inl (v.sameLengths_iff.mp hsame)
    · by_cases h2 : v.rng2.length = 0
      · exact .inr h2
      · have hbegin : Traversal.OnPath v.traversal (minLength v.lens) v.beginCursor :=
          .inl ⟨0, Nat.zero_le _, rfl⟩
        have hend : Traversal.OnPath v.traversal (minLength v.lens) v.endCursor := .inr (.inr rfl)
        have hadd := law.additive _ _ _ hbegin hend hbegin
        simp only [traversal, distanceTo, beginCursor, endCursor] at hadd
        omega
  · intro h
    have haligned : Aligned v.lens := by
      obtain hsame | hzero := h
      · exact .inl (v.sameLengths_iff.mpr hsame)
      · exact .inr (by omega)
    -- the second component measures the way: it moves exactly when the view does
    apply v.lockstep.jumpLaw_of_measure haligned (fun c => c.it2)
    intro p q hp hq
    have hshape : ∀ c, Traversal.OnPath v.traversal (minLength v.lens) c →
        (c.it1 = c.it2 ∨ c.it2 = 0 ∧ v.rng2.length = 0) ∧ (v.rng2.length = 0 → c.it2 = 0) := by
      intro c hc
      obtain ⟨j, hj, hits⟩ | hits := v.lockstep.onPath_its hc
      · have heq : [c.it1, c.it2] = [j, j] := hits
        simp only [List.cons.injEq, and_true] at heq
        omega
      · have heq : [c.it1, c.it2] = [v.rng1.length, v.rng2.length] := hits
        simp only [List.cons.injEq, and_true] at heq
        omega
    have hp' := hshape p hp
    have hq' := hshape q hq
    simp only [traversal, distanceTo]
    split <;> omega

end IterTransform2View

/-- Forward, both views are what they should be for any lengths. Backward from the end
they are so exactly for bases of equal length or an empty view; predecessors and
distances agree under the same condition for `zip_with`, and for `transform` when the
lengths agree or the second range is empty. -/
theorem transform2_zip_traversal {α β γ : Type} :
    (∀ v : IterZipWithView α γ,
      Traversal.ForwardLaw v.traversal (minLength v.lens) v.element ∧
      (Traversal.BackwardLaw v.traversal (minLength v.lens) ∧
          Traversal.JumpLaw v.traversal (minLength v.lens) ↔
        SameLengths v.lens ∨ minLength v.lens = 0)) ∧
    (∀ v : IterTransform2View α β γ,
      Traversal.ForwardLaw v.traversal (minLength v.lens) v.element ∧
      (Traversal.BackwardLaw v.traversal (minLength v.lens) ↔
        v.rng1.length = v.rng2.length ∨ minLength v.lens = 0) ∧
      (Traversal.BackwardLaw v.traversal (minLength v.lens) ∧
          Traversal.JumpLaw v.traversal (minLength v.lens) ↔
        v.rng1.length = v.rng2.length ∨ v.rng2.length = 0)) := by
  refine ⟨fun v => ⟨v.forwardLaw, ?_⟩, fun v => ⟨v.forwardLaw, ?_, ?_⟩⟩
  · rw [v.lockstep.backwardLaw_iff, v.jumpLaw_iff, and_self]
    rfl
  · rw [v.lockstep.backwardLaw_iff, ← v.sameLengths_iff]
    rfl
  · rw [v.lockstep.backwardLaw_iff, v.jumpLaw_iff]
    refine ⟨fun h => h.2, fun h => ⟨?_, h⟩⟩
    have hmin := v.minLength_lens
    obtain hsame | hzero := h
    · exact .inl (v.sameLengths_iff.mpr hsame)
    · exact .inr (by omega)

/-- `{1}` zipped with `{2, 3}`. -/
def zipOneTwo : IterZipWithView Nat (List Nat) where
  rngs := [⟨[1], finite, by decide⟩, ⟨[2, 3], finite, by decide⟩]
  fn := id
  nonempty := by decide
  differenceMax := 0x7fffffffffffffff
  sizeMax := 0xffffffffffffffff
  length_le := by decide
  difference_le := by decide

/-- Going back from the end of `zipOneTwo` reads `(1, 3)`, which is not an element. -/
theorem zipOneTwo_backward :
    (zipOneTwo.traversal.forward 0 >>= zipOneTwo.read) = .ok [1, 2] ∧
    (zipOneTwo.traversal.backward 1 >>= zipOneTwo.read) = .ok [1, 3] ∧
    ¬ Traversal.BackwardLaw zipOneTwo.traversal (minLength zipOneTwo.lens) := by
  refine ⟨rfl, rfl, fun law => ?_⟩
  obtain ⟨c, d, hback, hfwd, hsame⟩ := law 1 (by decide) (by decide)
  cases hback
  cases hfwd
  exact absurd hsame (by decide)

end EARanges.View
