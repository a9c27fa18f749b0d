import Mathlib.Data.List.Basic

/-!
# Runs with faults and fuel

A run either returns, faults, or exhausts its step budget. A fault is a step the
program has no right to take: a read or a write outside the cells it was handed,
or an iterator moved past an end. Loops without a syntactic bound take a fuel
argument; `Returns` and `Diverges` speak about all sufficiently large budgets, so
no result below depends on a particular one.
-/
namespace EARanges.Support

inductive Stop where
  | fault | fuel
  deriving DecidableEq, Repr

abbrev Exec (α : Type) := Except Stop α

/-- From some budget on the run returns `r`. -/
def Returns {α : Type} (run : Nat → Exec α) (r : α) : Prop :=
  ∃ bound, ∀ fuel, bound ≤ fuel → run fuel = .ok r

/-- Every budget is exhausted: the run neither returns nor faults. -/
def Diverges {α : Type} (run : Nat → Exec α) : Prop :=
  ∀ fuel, run fuel = .error .fuel

theorem Returns.unique {α : Type} {run : Nat → Exec α} {r r' : α}
    (h : Returns run r) (h' : Returns run r') : r = r' := by
  obtain ⟨n, hn⟩ := h
  obtain ⟨m, hm⟩ := h'
  have hr := hn (max n m) (Nat.le_max_left _ _)
  rw [hm (max n m) (Nat.le_max_right _ _)] at hr
  exact (Except.ok.inj hr).symm

theorem Diverges.not_returns {α : Type} {run : Nat → Exec α} (h : Diverges run) (r : α) :
    ¬ Returns run r := by
  rintro ⟨n, hn⟩
  have hr := hn n (Nat.le_refl n)
  rw [h n] at hr
  cases hr

/-- A budget-independent run from some point on returns its value. -/
theorem Returns.of_forall {α : Type} {run : Nat → Exec α} {r : α} (bound : Nat)
    (h : ∀ fuel, run (bound + fuel) = .ok r) : Returns run r := by
  refine ⟨bound, fun fuel hle => ?_⟩
  obtain ⟨extra, rfl⟩ := Nat.exists_eq_add_of_le hle
  exact h extra

/-- The run returns, and its answer is the truth value of `spec`. -/
def Decides (run : Nat → Exec Bool) (spec : Prop) : Prop :=
  ∃ b, Returns run b ∧ (b = true ↔ spec)

theorem Diverges.not_decides {run : Nat → Exec Bool} (h : Diverges run) (spec : Prop) :
    ¬ Decides run spec := by
  rintro ⟨b, hb, _⟩
  exact h.not_returns b hb

@[simp] theorem exec_bind_ok {α β : Type} (a : α) (f : α → Exec β) :
    ((Except.ok a : Exec α) >>= f) = f a := rfl

@[simp] theorem exec_bind_error {α β : Type} (e : Stop) (f : α → Exec β) :
    ((Except.error e : Exec α) >>= f) = .error e := rfl

@[simp] theorem exec_pure {α : Type} (a : α) : (pure a : Exec α) = .ok a := rfl

/-- A sequence returns exactly when each part does. -/
theorem exec_bind_eq_ok {α β : Type} {x : Exec α} {f : α → Exec β} {b : β} :
    (x >>= f) = .ok b ↔ ∃ a, x = .ok a ∧ f a = .ok b := by
  cases x with
  | error e => simp
  | ok a => simp

/-- Sequences with the same beginning. -/
theorem exec_bind_congr {α β : Type} {x : Exec α} {f g : α → Exec β}
    (h : ∀ a, x = .ok a → f a = g a) : (x >>= f) = (x >>= g) := by
  cases x with
  | error e => rfl
  | ok a => exact h a rfl

end EARanges.Support
