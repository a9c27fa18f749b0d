import EARanges.Support.Responses
import Mathlib.Logic.Function.Iterate

/-!
# Visits to the elements of a sequence

What a single-pass iterator that keeps the element it stands on looks like from outside: `look`
answers with the element however often it is asked, and so does `take`, but that moves the element
out, so that only a husk is left of it until the iterator goes on.
-/
namespace EARanges.Support

inductive VisitRequest where
  | atEnd | look | take | next
  deriving DecidableEq, Repr

inductive VisitAnswer (α : Type) where
  | done
  | element (x : α)
  | truth (b : Bool)
  deriving DecidableEq, Repr

/-- Where the iterator stands, whether the element there has been computed, and how often it has
been moved out. -/
structure Visit where
  position : Nat
  computed : Bool
  taken : Nat
  deriving DecidableEq, Repr

namespace Visit

variable {α : Type}

def start : Visit := ⟨0, false, 0⟩

/-- The number of elements up to and with the last one computed. -/
def reach (v : Visit) : Nat := v.position + if v.computed then 1 else 0

def shown (husk : α → α) (v : Visit) (x : α) : α := husk^[v.taken] x

end Visit

variable {α : Type}

/-- What is asked of an iterator that stands on an element. -/
def visitElement (husk : α → α) (v : Visit) (x : α) : VisitRequest → Visit × VisitAnswer α
  | .atEnd => (v, .truth false)
  | .look => ({ v with computed := true }, .element (v.shown husk x))
  | .take => ({ v with computed := true, taken := v.taken + 1 }, .element (v.shown husk x))
  | .next => (⟨v.position + 1, false, 0⟩, .done)

/-- Where there is no element, nothing is read or passed. -/
def visits (elements : Nat → Option α) (husk : α → α) :
    Responder Visit VisitRequest (VisitAnswer α) := fun op v =>
  match elements v.position with
  | some x => .ok (visitElement husk v x op)
  | none => if op = .atEnd then .ok (v, .truth true) else .error .fault

/-- A responder that does what the visitor does, on an element and at the end, answers every chain
alike. -/
theorem visits_refines {σ : Type} {m : Responder σ VisitRequest (VisitAnswer α)}
    {elements : Nat → Option α} {husk : α → α} {Rel : σ → Visit → Prop}
    (hend : ∀ s v, Rel s v → elements v.position = none →
      ∃ s', m .atEnd s = .ok (s', .truth true) ∧ Rel s' v)
    (helement : ∀ s v x op, Rel s v → elements v.position = some x →
      ∃ s', m op s = .ok (s', (visitElement husk v x op).2) ∧ Rel s' (visitElement husk v x op).1)
    {ops : List VisitRequest} {s : σ} {v v' : Visit} {rs : List (VisitAnswer α)} (h : Rel s v)
    (hrun : Responder.run (visits elements husk) ops v = .ok (v', rs)) :
    ∃ s', Responder.run m ops s = .ok (s', rs) ∧ Rel s' v' := by
  refine Responder.run_refines (fun op s v hrel v' r hstep => ?_) h hrun
  unfold visits at hstep
  split at hstep
  next x hx =>
    have hvisit := helement s v x op hrel hx
    rwa [Except.ok.inj hstep] at hvisit
  next hx =>
    split at hstep
    next hop =>
      obtain ⟨rfl, rfl⟩ := Prod.mk.inj (Except.ok.inj hstep)
      exact hop ▸ hend s v hrel hx
    next => cases hstep

end EARanges.Support
