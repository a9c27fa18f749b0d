import EARanges.Support.Exec

/-!
# Objects that answer operations

A responder takes an operation in a state and answers with a response and the state behind
it. `run_alike` is the simulation rule: where two responders, on different states, answer
each operation of a chain alike and keep their states related, they answer the chain alike.
-/
namespace EARanges.Support

abbrev Responder (σ ω ρ : Type) := ω → σ → Exec (σ × ρ)

namespace Responder

variable {σ τ ω ρ : Type} {m : Responder σ ω ρ} {n : Responder τ ω ρ}

/-- The responses to a chain of operations, and the state behind the last. -/
def run (m : Responder σ ω ρ) : List ω → σ → Exec (σ × List ρ)
  | [], s => .ok (s, [])
  | op :: ops, s => do
    let (s, r) ← m op s
    let (s, rs) ← run m ops s
    .ok (s, r :: rs)

/-- Both stop in the same way, or both respond the same in related states. -/
inductive Alike {ρ : Type} (R : σ → τ → Prop) : Exec (σ × ρ) → Exec (τ × ρ) → Prop
  | ok {s : σ} {t : τ} (r : ρ) : R s t → Alike R (.ok (s, r)) (.ok (t, r))
  | error (e : Stop) : Alike R (.error e) (.error e)

theorem Alike.of_ok {R : σ → τ → Prop} {x : Exec (σ × ρ)} {t : τ} {r : ρ}
    (h : Alike R x (.ok (t, r))) : ∃ s, x = .ok (s, r) ∧ R s t := by
  cases h with
  | ok r hrel => exact ⟨_, rfl, hrel⟩

theorem run_alike {R : σ → τ → Prop} {ops : List ω}
    (hstep : ∀ op ∈ ops, ∀ s t, R s t → Alike R (m op s) (n op t)) {s : σ} {t : τ}
    (h : R s t) : Alike R (run m ops s) (run n ops t) := by
  induction ops generalizing s t with
  | nil => exact .ok [] h
  | cons op ops ih =>
    have hhead := hstep op (List.mem_cons_self ..) s t h
    simp only [run]
    generalize m op s = x at hhead ⊢
    generalize n op t = y at hhead ⊢
    cases hhead with
    | error e => exact .error e
    | ok r hrel =>
      have htail := ih (fun op hop => hstep op (List.mem_cons_of_mem _ hop)) hrel
      simp only [exec_bind_ok]
      generalize run m ops _ = x at htail ⊢
      generalize run n ops _ = y at htail ⊢
      cases htail with
      | error e => exact .error e
      | ok rs hrel => exact .ok (r :: rs) hrel

theorem run_cons_eq_ok {op : ω} {ops : List ω} {s u : σ} {rs : List ρ} :
    run m (op :: ops) s = .ok (u, rs) ↔
      ∃ t r rs', m op s = .ok (t, r) ∧ run m ops t = .ok (u, rs') ∧ rs = r :: rs' := by
  simp only [run, exec_bind_eq_ok, Prod.exists, Except.ok.injEq, Prod.mk.injEq]
  constructor
  · rintro ⟨t, r, hhead, v, rs', htail, rfl, rfl⟩
    exact ⟨t, r, rs', hhead, htail, rfl⟩
  · rintro ⟨t, r, rs', hhead, htail, rfl⟩
    exact ⟨t, r, hhead, u, rs', htail, rfl, rfl⟩

/-- What the second answers, the first answers too, and they stay related. -/
theorem run_refines {R : σ → τ → Prop}
    (hstep : ∀ op s t, R s t → ∀ t' r, n op t = .ok (t', r) → ∃ s', m op s = .ok (s', r) ∧ R s' t')
    {ops : List ω} {s : σ} {t t' : τ} {rs : List ρ} (h : R s t)
    (hrun : run n ops t = .ok (t', rs)) : ∃ s', run m ops s = .ok (s', rs) ∧ R s' t' := by
  induction ops generalizing s t rs with
  | nil =>
    obtain ⟨rfl, rfl⟩ := Prod.mk.inj (Except.ok.inj hrun)
    exact ⟨s, rfl, h⟩
  | cons op ops ih =>
    obtain ⟨u, r, rs', hhead, htail, rfl⟩ := run_cons_eq_ok.mp hrun
    obtain ⟨v, hv, hrel⟩ := hstep op s t h u r hhead
    obtain ⟨s', hs', hrel'⟩ := ih hrel htail
    exact ⟨s', run_cons_eq_ok.mpr ⟨v, r, rs', hv, hs', rfl⟩, hrel'⟩

/-- A chain is run in two parts. -/
theorem run_append {ops rest : List ω} {s t u : σ} {rs rs' : List ρ}
    (hfirst : run m ops s = .ok (t, rs)) (hrest : run m rest t = .ok (u, rs')) :
    run m (ops ++ rest) s = .ok (u, rs ++ rs') := by
  induction ops generalizing s rs with
  | nil =>
    obtain ⟨rfl, rfl⟩ := Prod.mk.inj (Except.ok.inj hfirst)
    exact hrest
  | cons op ops ih =>
    obtain ⟨v, r, rs'', hhead, htail, rfl⟩ := run_cons_eq_ok.mp hfirst
    exact run_cons_eq_ok.mpr ⟨v, r, rs'' ++ rs', hhead, ih htail, rfl⟩

end Responder

end EARanges.Support
