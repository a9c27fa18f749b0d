import EARanges.Support.Exec

/-!
# Loops without a condition

The body of a `while(true)` loop takes the loop's variables to their next values or
returns. `whileTrue_spec` is the rule of an invariant and a variant; `Visits` are the
states in which the body starts.
-/
namespace EARanges.Support

variable {σ ρ : Type}

inductive Iteration (σ ρ : Type) where
  | again (s : σ)
  | done (r : ρ)
  deriving Repr

def whileTrue (body : σ → Exec (Iteration σ ρ)) : Nat → σ → Exec ρ
  | 0, _ => .error .fuel
  | fuel + 1, s => do
    match ← body s with
    | .again s => whileTrue body fuel s
    | .done r => .ok r

/-- The states in which the body starts when the loop does in `s₀`. -/
inductive Visits (body : σ → Exec (Iteration σ ρ)) (s₀ : σ) : σ → Prop where
  | start : Visits body s₀ s₀
  | again {s s' : σ} : Visits body s₀ s → body s = .ok (.again s') → Visits body s₀ s'

variable {body : σ → Exec (Iteration σ ρ)}

theorem Visits.invariant {I : σ → Prop} {s₀ s : σ} (hs : Visits body s₀ s) (hstart : I s₀)
    (hbody : ∀ s s', I s → body s = .ok (.again s') → I s') : I s := by
  induction hs with
  | start => exact hstart
  | again _ hrun ih => exact hbody _ _ ih hrun

/-- A body that keeps the invariant and lowers the variant, or returns what is asked for. -/
theorem whileTrue_spec {I : σ → Prop} {post : ρ → Prop} (variant : σ → Nat)
    (hbody : ∀ s, I s →
      (∃ s', body s = .ok (.again s') ∧ I s' ∧ variant s' < variant s) ∨
        ∃ r, body s = .ok (.done r) ∧ post r)
    (fuel : Nat) (s : σ) (hs : I s) (hfuel : variant s < fuel) :
    ∃ r, whileTrue body fuel s = .ok r ∧ post r := by
  induction fuel generalizing s with
  | zero => omega
  | succ fuel ih =>
    rw [whileTrue]
    obtain ⟨s', hrun, hs', hlt⟩ | ⟨r, hrun, hr⟩ := hbody s hs
    · rw [hrun, exec_bind_ok]
      exact ih s' hs' (by omega)
    · rw [hrun, exec_bind_ok]
      exact ⟨r, rfl, hr⟩

end EARanges.Support
