import EARanges.Support.Visits

/-!
# `generate_view` and `generate_n_view`

view/generate.hpp and view/generate_n.hpp. The function is called when an element is read for the
first time, or when an element that has not been read is passed over; its result is kept in `val_`
until the iterator goes on.
-/
namespace EARanges.View
open EARanges.Support

variable {γ α : Type}

/-- A call returns a value and leaves the function object in another state. -/
abbrev Generator (γ α : Type) := γ → α × γ

namespace Generator

variable (g : Generator γ α) (gen : γ)

/-- The state after `n` calls. -/
def after (n : Nat) : γ := (fun s => (g s).2)^[n] gen

/-- What the call returns that `i` calls come before. -/
def result (i : Nat) : α := (g (g.after gen i)).1

theorem after_succ (n : Nat) : (g (g.after gen n)).2 = g.after gen (n + 1) :=
  (Function.iterate_succ_apply' (fun s => (g s).2) n gen).symm

end Generator

structure GenerateView (γ α : Type) where
  gen : γ
  val : Option α

namespace GenerateView

variable (g : Generator γ α)

/-- `cursor::read`. -/
def read (s : GenerateView γ α) : α × GenerateView γ α :=
  match s.val with
  | some x => (x, s)
  | none =>
    let (x, gen) := g s.gen
    (x, ⟨gen, some x⟩)

/-- `T x = *it`, which moves the value out of `val_`. -/
def take (husk : α → α) (s : GenerateView γ α) : α × GenerateView γ α :=
  let (x, s) := s.read g
  (x, { s with val := some (husk x) })

/-- `cursor::next`. -/
def next (s : GenerateView γ α) : GenerateView γ α :=
  match s.val with
  | some _ => { s with val := none }
  | none => { s with gen := (g s.gen).2 }

/-- A program that holds an iterator; its sentinel is never reached. -/
def client (husk : α → α) : Responder (GenerateView γ α) VisitRequest (VisitAnswer α)
  | .atEnd, s => .ok (s, .truth false)
  | .look, s => .ok ((s.read g).2, .element (s.read g).1)
  | .take, s => .ok ((s.take g husk).2, .element (s.take g husk).1)
  | .next, s => .ok (s.next g, .done)

end GenerateView

structure GenerateNView (γ α : Type) extends GenerateView γ α where
  n : Nat

namespace GenerateNView

variable (g : Generator γ α)

def next (s : GenerateNView γ α) : Exec (GenerateNView γ α) :=
  if s.n = 0 then .error .fault else .ok ⟨s.toGenerateView.next g, s.n - 1⟩

def client (husk : α → α) : Responder (GenerateNView γ α) VisitRequest (VisitAnswer α)
  | .atEnd, s => .ok (s, .truth (decide (0 = s.n)))
  | .look, s =>
    let (x, view) := s.toGenerateView.read g
    .ok (⟨view, s.n⟩, .element x)
  | .take, s =>
    let (x, view) := s.toGenerateView.take g husk
    .ok (⟨view, s.n⟩, .element x)
  | .next, s => do
    let s ← s.next g
    .ok (s, .done)

end GenerateNView

/-- The function has been called for every element passed, and for this one if it has been read. -/
structure Generated (g : Generator γ α) (gen : γ) (husk : α → α) (s : GenerateView γ α)
    (v : Visit) : Prop where
  calls : s.gen = g.after gen v.reach
  kept : s.val = if v.computed then some (v.shown husk (g.result gen v.position)) else none
  untaken : v.computed = false → v.taken = 0

section
variable {g : Generator γ α} {gen : γ} {husk : α → α} {s : GenerateView γ α} {v : Visit}

theorem Generated.read (h : Generated g gen husk s v) :
    (s.read g).1 = v.shown husk (g.result gen v.position) ∧
      Generated g gen husk (s.read g).2 { v with computed := true } := by
  obtain ⟨state, val⟩ := s
  obtain ⟨position, computed, taken⟩ := v
  obtain ⟨hgen, hval, htaken⟩ := h
  cases computed with
  | true =>
    obtain rfl : val = some _ := hval
    exact ⟨rfl, hgen, rfl, nofun⟩
  | false =>
    obtain rfl : val = none := hval
    obtain rfl : taken = 0 := htaken rfl
    obtain rfl : state = g.after gen position := hgen
    exact ⟨rfl, g.after_succ gen position, rfl, nofun⟩

theorem Generated.take (h : Generated g gen husk s v) :
    (s.take g husk).1 = v.shown husk (g.result gen v.position) ∧
      Generated g gen husk (s.take g husk).2
        { v with computed := true, taken := v.taken + 1 } := by
  obtain ⟨hx, hgen, hval, htaken⟩ := h.read
  refine ⟨hx, hgen, ?_, nofun⟩
  change some (husk (s.read g).1) = some _
  rw [hx]
  exact congrArg some (Function.iterate_succ_apply' husk v.taken _).symm

theorem Generated.next (h : Generated g gen husk s v) :
    Generated g gen husk (s.next g) ⟨v.position + 1, false, 0⟩ := by
  obtain ⟨state, val⟩ := s
  obtain ⟨position, computed, taken⟩ := v
  obtain ⟨hgen, hval, htaken⟩ := h
  cases computed with
  | true =>
    obtain rfl : val = some _ := hval
    exact ⟨hgen, rfl, fun _ => rfl⟩
  | false =>
    obtain rfl : val = none := hval
    obtain rfl : state = g.after gen position := hgen
    exact ⟨g.after_succ gen position, rfl, fun _ => rfl⟩

end

theorem Generated.start (g : Generator γ α) (gen : γ) (husk : α → α) :
    Generated g gen husk ⟨gen, none⟩ .start := ⟨rfl, rfl, fun _ => rfl⟩

/-- However the elements are read, the `i`-th is the result of the `i`-th call, and no call is made
for an element twice or before its turn. -/
theorem generate_calls (g : Generator γ α) (gen : γ) {husk : α → α} {ops : List VisitRequest}
    {v : Visit} {rs : List (VisitAnswer α)}
    (hrun : Responder.run (visits (fun i => some (g.result gen i)) husk) ops .start =
      .ok (v, rs)) :
    ∃ val, Responder.run (GenerateView.client g husk) ops ⟨gen, none⟩ =
      .ok (⟨g.after gen v.reach, val⟩, rs) := by
  have hstep : ∀ s v x op, Generated g gen husk s v → some (g.result gen v.position) = some x →
      ∃ s', GenerateView.client g husk op s = .ok (s', (visitElement husk v x op).2) ∧
        Generated g gen husk s' (visitElement husk v x op).1 := by
    intro s v x op hs hx
    obtain rfl := Option.some.inj hx
    cases op with
    | atEnd => exact ⟨s, rfl, hs⟩
    | look => exact ⟨_, by rw [GenerateView.client, hs.read.1]; rfl, hs.read.2⟩
    | take => exact ⟨_, by rw [GenerateView.client, hs.take.1]; rfl, hs.take.2⟩
    | next => exact ⟨_, rfl, hs.next⟩
  obtain ⟨⟨state, val⟩, hops, hs⟩ :=
    visits_refines (fun _ _ _ hnone => by cases hnone) hstep (.start g gen husk) hrun
  exact ⟨val, hs.calls ▸ hops⟩

/-- The count is what is left of it, and no call has been made for the end. -/
structure GeneratedN (g : Generator γ α) (gen : γ) (husk : α → α) (n : Nat)
    (s : GenerateNView γ α) (v : Visit) : Prop where
  view : Generated g gen husk s.toGenerateView v
  count : s.n = n - v.position
  within : v.reach ≤ n

theorem generateN_step {g : Generator γ α} {gen : γ} {husk : α → α} {n : Nat}
    {s : GenerateNView γ α} {v : Visit} (op : VisitRequest) (hs : GeneratedN g gen husk n s v)
    (hlt : v.position < n) :
    ∃ s', GenerateNView.client g husk op s =
        .ok (s', (visitElement husk v (g.result gen v.position) op).2) ∧
      GeneratedN g gen husk n s' (visitElement husk v (g.result gen v.position) op).1 := by
  obtain ⟨view, count⟩ := s
  obtain ⟨hview, hcount, hwithin⟩ := hs
  obtain rfl : count = n - v.position := hcount
  have hne : n - v.position ≠ 0 := Nat.sub_ne_zero_of_lt hlt
  cases op with
  | atEnd =>
    refine ⟨⟨view, n - v.position⟩, ?_, hview, rfl, hwithin⟩
    rw [GenerateNView.client, decide_eq_false hne.symm]
    rfl
  | look =>
    refine ⟨⟨(view.read g).2, n - v.position⟩, ?_, hview.read.2, rfl, hlt⟩
    change Except.ok (_, VisitAnswer.element (view.read g).1) = _
    rw [hview.read.1]
    rfl
  | take =>
    refine ⟨⟨(view.take g husk).2, n - v.position⟩, ?_, hview.take.2, rfl, hlt⟩
    change Except.ok (_, VisitAnswer.element (view.take g husk).1) = _
    rw [hview.take.1]
    rfl
  | next =>
    refine ⟨⟨view.next g, n - v.position - 1⟩, ?_, hview.next, Nat.sub_sub n v.position 1, hlt⟩
    rw [GenerateNView.client, GenerateNView.next, if_neg hne]
    rfl

/-- The same with a count: the view ends after `n` elements, and no call is made there. -/
theorem generateN_calls (g : Generator γ α) (gen : γ) (n : Nat) {husk : α → α}
    {ops : List VisitRequest} {v : Visit} {rs : List (VisitAnswer α)}
    (hrun : Responder.run (visits (fun i => if i < n then some (g.result gen i) else none) husk)
      ops .start = .ok (v, rs)) :
    ∃ val, Responder.run (GenerateNView.client g husk) ops ⟨⟨gen, none⟩, n⟩ =
      .ok (⟨⟨g.after gen v.reach, val⟩, n - v.position⟩, rs) ∧ v.reach ≤ n := by
  have hstart : GeneratedN g gen husk n ⟨⟨gen, none⟩, n⟩ .start :=
    ⟨.start g gen husk, rfl, Nat.zero_le n⟩
  have hend : ∀ s v, GeneratedN g gen husk n s v →
      (if v.position < n then some (g.result gen v.position) else none) = none →
      ∃ s', GenerateNView.client g husk .atEnd s = .ok (s', .truth true) ∧
        GeneratedN g gen husk n s' v := by
    intro s v hs hnone
    have hle : ¬ v.position < n := fun hlt => by simp [hlt] at hnone
    refine ⟨s, ?_, hs⟩
    rw [GenerateNView.client, decide_eq_true (hs.count.trans (by omega)).symm]
  have hstep : ∀ s v x op, GeneratedN g gen husk n s v →
      (if v.position < n then some (g.result gen v.position) else none) = some x →
      ∃ s', GenerateNView.client g husk op s = .ok (s', (visitElement husk v x op).2) ∧
        GeneratedN g gen husk n s' (visitElement husk v x op).1 := by
    intro s v x op hs hx
    obtain ⟨hlt, hx⟩ := Option.ite_none_right_eq_some.mp hx
    obtain rfl := Option.some.inj hx
    exact generateN_step op hs hlt
  obtain ⟨⟨⟨state, val⟩, count⟩, hops, hs⟩ := visits_refines hend hstep hstart hrun
  obtain rfl : state = g.after gen v.reach := hs.view.calls
  obtain rfl : count = n - v.position := hs.count
  exact ⟨val, hops, hs.within⟩

/-- A counter that is read twice, passed over, and read until the end. -/
theorem generateN_calls_counter :
    ∃ val, Responder.run (GenerateNView.client (fun s => (10 * s, s + 1)) fun _ => 7)
        [.look, .look, .next, .next, .take, .look, .next, .atEnd] ⟨⟨1, none⟩, 3⟩ =
      .ok (⟨⟨4, val⟩, 0⟩, [.element 10, .element 10, .done, .done, .element 30, .element 7, .done,
        .truth true]) ∧
      (⟨3, false, 0⟩ : Visit).reach ≤ 3 :=
  generateN_calls (fun s => (10 * s, s + 1)) 1 3 (v := ⟨3, false, 0⟩) rfl

end EARanges.View
