import EARanges.Support.InPlace

/-!
# Cursors and what can be observed of them

A cursor is a state with `read` and `next`. Two cursors, possibly of different types,
are told apart only by some sequence of the two; `SameReads` says that none does.
`sameReads_of_related` is the coinduction rule: a relation that the reads respect and
the steps preserve is contained in `SameReads`.
-/
namespace EARanges.Support

structure Cursor (σ α : Type) where
  read : σ → Exec α
  next : σ → Exec σ

inductive CursorOp where
  | read | next
  deriving DecidableEq, Repr

namespace Cursor

variable {σ τ α : Type}

/-- The values read along a sequence of operations. -/
def observe (c : Cursor σ α) : List CursorOp → σ → Exec (List α)
  | [], _ => .ok []
  | .read :: ops, s => do
    let x ← c.read s
    let xs ← observe c ops s
    .ok (x :: xs)
  | .next :: ops, s => do
    let s ← c.next s
    observe c ops s

/-- No sequence of operations distinguishes the two states. -/
def SameReads (c : Cursor σ α) (d : Cursor τ α) (s : σ) (t : τ) : Prop :=
  ∀ ops, c.observe ops s = d.observe ops t

/-- Both steps stop in the same way, or both succeed in related states. -/
inductive StepsAlike (R : σ → τ → Prop) : Exec σ → Exec τ → Prop
  | ok {s : σ} {t : τ} : R s t → StepsAlike R (.ok s) (.ok t)
  | error (e : Stop) : StepsAlike R (.error e) (.error e)

theorem sameReads_of_related {c : Cursor σ α} {d : Cursor τ α} (R : σ → τ → Prop)
    (hread : ∀ s t, R s t → c.read s = d.read t)
    (hnext : ∀ s t, R s t → StepsAlike R (c.next s) (d.next t))
    {s : σ} {t : τ} (h : R s t) : SameReads c d s t := by
  intro ops
  induction ops generalizing s t with
  | nil => rfl
  | cons op ops ih =>
    cases op with
    | read => simp only [observe, hread s t h, ih h]
    | next =>
      have hsteps := hnext s t h
      simp only [observe]
      generalize c.next s = x at hsteps ⊢
      generalize d.next t = y at hsteps ⊢
      cases hsteps with
      | ok hrel => exact ih hrel
      | error e => rfl

theorem SameReads.read_eq {c : Cursor σ α} {d : Cursor τ α} {s : σ} {t : τ}
    (h : SameReads c d s t) : c.read s = d.read t := by
  have hops := h [.read]
  simp only [observe] at hops
  cases hc : c.read s <;> cases hd : d.read t <;> simp_all

/-- States from which every operation stops in the same way. -/
theorem sameReads_of_stopped {c : Cursor σ α} {d : Cursor τ α} {s : σ} {t : τ} {e : Stop}
    (hs : c.read s = .error e ∧ c.next s = .error e)
    (ht : d.read t = .error e ∧ d.next t = .error e) : SameReads c d s t := by
  refine sameReads_of_related (fun a b => a = s ∧ b = t) ?_ ?_ ⟨rfl, rfl⟩
  · rintro _ _ ⟨rfl, rfl⟩
    rw [hs.1, ht.1]
  · rintro _ _ ⟨rfl, rfl⟩
    rw [hs.2, ht.2]
    exact .error e

end Cursor

end EARanges.Support
