import EARanges.View.Cycle
import EARanges.View.SetUnion
import EARanges.View.ExclusiveScan

/-!
# Conversion of mutable cursors to const ones

view/cycle.hpp, view/set_algorithm.hpp, view/exclusive_scan.hpp. The converting
constructors of the three views copy the base iterators but not the state kept beside
them: the cycle count, the tag of the current range, the running sum. Each is lost
exactly where it differs from what the constructor leaves in its place.
-/
namespace EARanges.View
open EARanges.Support

namespace CycledView

variable {α : Type}

/-- The converting constructor: its initialisers do not name `n_`. -/
def toConst (c : CycleCursor false) : CycleCursor true := { it := c.it }

/-- The mutable cursor at the place of a const one. -/
def asMutable (c : CycleCursor true) : CycleCursor false := { it := c.it, n := c.n }

/-- The cursor as an observer sees it, the shared cache being part of the state. -/
def cursor {k : Bool} (v : CycledView α) : Cursor (EndCache × CycleCursor k) α where
  read s := match read v s.2 with
    | some x => .ok x
    | none => .error .fault
  next s := next v s.1 s.2

/-- Neither reads nor steps consult the cycle count. -/
theorem toConst_sameReads (v : CycledView α) (cache : EndCache) (c : CycleCursor false) :
    Cursor.SameReads (cursor v) (cursor v) (cache, c) (cache, toConst c) := by
  refine Cursor.sameReads_of_related
    (fun s t => s.1 = t.1 ∧ s.2.it = t.2.it) ?_ ?_ ⟨rfl, rfl⟩
  · rintro ⟨cache, c⟩ ⟨_, d⟩ ⟨rfl, hit⟩
    simp only at hit
    simp only [cursor, read, hit]
  · rintro ⟨cache, c⟩ ⟨_, d⟩ ⟨rfl, hit⟩
    simp only at hit
    simp only [cursor, next, hit]
    split
    · exact .error _
    · split
      · exact .ok ⟨rfl, rfl⟩
      · exact .ok ⟨rfl, rfl⟩

/-- The converted cursor behaves as the mutable one, also against other const cursors
of the view. -/
structure ConversionLaw (v : CycledView α) (cache : EndCache) (c : CycleCursor false) : Prop where
  reads : Cursor.SameReads (cursor v) (cursor v) (cache, c) (cache, toConst c)
  equality : ∀ p : CycleCursor true, Valid v cache p → equal (toConst c) p = equal c (asMutable p)
  distance : ∀ p : CycleCursor true, Valid v cache p →
    distanceTo v cache (toConst c) p = distanceTo v cache c (asMutable p)

theorem conversionLaw_iff {v : CycledView α} {cache : EndCache} {c : CycleCursor false}
    (h : Valid v cache c) : ConversionLaw v cache c ↔ c.n = 0 := by
  constructor
  · intro law
    -- the distance to the begin cursor differs by the cycles already made
    have hdist := congrArg Prod.snd (law.distance _ (beginCursor_valid v h.cacheOk))
    have hbegin : (beginCursor v : CycleCursor false) = asMutable (beginCursor v) := rfl
    rw [distanceTo_eq h.cacheOk, ← hbegin, distanceTo_eq h.cacheOk] at hdist
    simp only [position, beginCursor, toConst] at hdist
    have hmul : c.n * v.last = 0 := by linarith
    exact (Int.mul_eq_zero.mp hmul).resolve_right (Int.ne_of_gt v.last_pos)
  · intro hn
    refine ⟨toConst_sameReads v cache c, fun p _ => ?_, fun p _ => ?_⟩
    · simp only [equal, toConst, asMutable, hn]
    · simp only [distanceTo, toConst, asMutable, hn]

end CycledView

/-- Where the converting constructors preserve position: a cycle cursor in its first
cycle, a union cursor at the end, and a scan adaptor whose running sum happens to be
the value the constructor leaves. -/
theorem conversion_preserves_iff {α β γ κ τ : Type} :
    (∀ (v : CycledView α) (cache : EndCache) (cs : List (CycleCursor false)),
      CycledView.Reachable v cache cs → ∀ c ∈ cs,
        (CycledView.ConversionLaw v cache c ↔ c.n = 0)) ∧
    (∀ (v : SetUnionView α β γ κ) (c : SetUnionCursor false), SetUnionView.Reachable v c →
      (SetUnionView.ConversionLaw v c ↔ SetUnionView.atEnd v c = true)) ∧
    (∀ (v : ExclusiveScanView α τ) (a : ScanAdaptor false τ), ExclusiveScanView.Reachable v a →
      (ExclusiveScanView.ConversionLaw v a ↔ a.sum = v.dflt)) := by
  refine ⟨fun v cache cs h c hc => ?_, fun v c h => ?_, fun v a _ => ?_⟩
  · exact CycledView.conversionLaw_iff (h.valid.2 c hc)
  · exact SetUnionView.conversionLaw_iff h
  · exact ExclusiveScanView.conversionLaw_iff v a

/-- The union of `{1}` and `{2}`. -/
def unionOneTwo : SetUnionView Nat Nat Nat Nat :=
  ⟨[1], [2], fun a b => decide (a < b), id, id, id, id⟩

theorem unionOneTwo_begin : SetUnionView.Reachable unionOneTwo
    (⟨0, 0, some .first⟩ : SetUnionCursor false) := .begin rfl

theorem unionOneTwo_end : SetUnionView.Reachable unionOneTwo
    (⟨1, 1, some .second⟩ : SetUnionCursor false) :=
  .next (c := ⟨1, 0, some .second⟩) (.next unionOneTwo_begin rfl) rfl

/-- Running sums of `{1, 2}` from 5, over a type whose default value is 0. -/
def scanOneTwo : ExclusiveScanView Nat Nat := ⟨[1, 2], 5, (· + ·), some 0⟩

theorem conversion_preserves_iff_end :
    CycledView.ConversionLaw CycledView.abc none ⟨2, 0⟩ ∧
    SetUnionView.ConversionLaw unionOneTwo ⟨1, 1, some .second⟩ ∧
    ExclusiveScanView.ConversionLaw scanOneTwo ⟨2, some 0⟩ := by
  have main := @conversion_preserves_iff Nat Nat Nat Nat Nat
  refine ⟨?_, ?_, ?_⟩
  · exact (main.1 _ _ _ CycledView.abc_reachable ⟨2, 0⟩ (by decide)).mpr rfl
  · exact (main.2.1 _ _ unionOneTwo_end).mpr rfl
  · exact (main.2.2 scanOneTwo _ .end).mpr rfl

/-- Each conversion loses its state: a cycle cursor in its second cycle, a union cursor
at its first element, a scan adaptor after `begin`. -/
theorem conversion_loses_state :
    (CycledView.Reachable CycledView.abc none
        [(⟨0, 1⟩ : CycleCursor false), ⟨2, 0⟩, ⟨1, 0⟩, ⟨0, 0⟩] ∧
      ¬ CycledView.ConversionLaw CycledView.abc none ⟨0, 1⟩) ∧
    (SetUnionView.Reachable unionOneTwo (⟨0, 0, some .first⟩ : SetUnionCursor false) ∧
      ¬ SetUnionView.ConversionLaw unionOneTwo ⟨0, 0, some .first⟩) ∧
    (ExclusiveScanView.Reachable scanOneTwo (⟨0, some 5⟩ : ScanAdaptor false Nat) ∧
      ¬ ExclusiveScanView.ConversionLaw scanOneTwo ⟨0, some 5⟩) := by
  refine ⟨⟨CycledView.abc_reachable, fun law => ?_⟩, ⟨unionOneTwo_begin, fun same => ?_⟩,
    ⟨.begin, fun same => ?_⟩⟩
  · have hvalid := CycledView.beginCursor_valid CycledView.abc (k := true) (.inl rfl)
    exact absurd (law.equality _ hvalid) (by decide)
  · have hread := Cursor.SameReads.read_eq same
    exact absurd hread (by decide)
  · have hread := Cursor.SameReads.read_eq same
    exact absurd hread (by decide)

end EARanges.View
