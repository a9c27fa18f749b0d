import EARanges.Support.Effects

/-!
# Ranges as objects

A range is a state with the operations that iterators and sentinels have on it. `Presents` is
the law of a range over a list: its iterators are positions, and each operation does to them
what it does to positions. A view of a range is again a range, so a view is verified by one
theorem that takes the law of its base to its own law.

`begin`, and `end` where it is an iterator that can go back, may prepare a range for the
iterators it hands out; `Phase.live` says that one of them has been called.
-/
namespace EARanges.Support

/-- What the types of a range offer. -/
structure Capabilities where
  bidirectional : Bool
  randomAccess : Bool
  common : Bool
  sized : Bool
  sizedIter : Bool
  sizedSentinel : Bool
  bidirectional_of_random : randomAccess = true → bidirectional = true
  sizedIter_of_random : randomAccess = true → sizedIter = true
  sentinel_of_common : common = true → sizedSentinel = sizedIter

/-- `asIter` is for ranges whose `end` is an iterator. `jumpHook` is an overload of `advance`
that the iterators of the range bring along. -/
structure RangeModel (β : Type) where
  State : Type
  Iter : Type
  Sent : Type
  caps : Capabilities
  fresh : State
  begin : Effect State Iter
  end_ : Effect State Sent
  asIter : Sent → Exec Iter
  read : Iter → Effect State β
  next : Iter → Effect State Iter
  prev : Iter → Effect State Iter
  equal : Iter → Iter → Effect State Bool
  reached : Iter → Sent → Effect State Bool
  advance : Int → Iter → Effect State Iter
  distanceTo : Iter → Iter → Effect State Int
  distanceToEnd : Iter → Sent → Effect State Int
  size : Effect State Nat
  jumpHook : Option (Int → Iter → Effect State Iter)

theorem RangeModel.bidirectional_of_random {β : Type} (R : RangeModel β) :
    R.caps.randomAccess = true → R.caps.bidirectional = true :=
  R.caps.bidirectional_of_random

theorem RangeModel.sizedIter_of_random {β : Type} (R : RangeModel β) :
    R.caps.randomAccess = true → R.caps.sizedIter = true :=
  R.caps.sizedIter_of_random

inductive Phase where
  | idle | live
  deriving DecidableEq, Repr

section
variable {β : Type}

/-- `At i c`: the iterator `c` is the position `i` of `xs`. -/
structure Presents (R : RangeModel β) (xs : List β) (Inv : Phase → R.State → Prop)
    (At : Nat → R.Iter → Prop) (AtEnd : R.Sent → Prop) : Prop where
  fresh : Inv .idle R.fresh
  idle : ∀ s, Inv .live s → Inv .idle s
  le : ∀ {i c}, At i c → i ≤ xs.length
  begin : Yields (Inv .idle) R.begin (Inv .live) (At 0)
  end_ : ∀ phase, Gives (Inv phase) R.end_ AtEnd
  endLive : R.caps.common = true → R.caps.bidirectional = true →
    Yields (Inv .idle) R.end_ (Inv .live) AtEnd
  asIter : R.caps.common = true → ∀ {e}, AtEnd e → ∃ c, R.asIter e = .ok c ∧ At xs.length c
  read : ∀ {i c x}, At i c → xs[i]? = some x → Gives (Inv .live) (R.read c) (· = x)
  next : ∀ {i c}, At i c → i < xs.length → Gives (Inv .live) (R.next c) (At (i + 1))
  prev : R.caps.bidirectional = true → ∀ {i c}, At (i + 1) c →
    Gives (Inv .live) (R.prev c) (At i)
  equal : ∀ {i j c d}, At i c → At j d → Gives (Inv .live) (R.equal c d) (· = decide (i = j))
  reached : ∀ {i c e}, At i c → AtEnd e →
    Gives (Inv .live) (R.reached c e) (· = decide (i = xs.length))
  advance : R.caps.randomAccess = true → ∀ {i j : Nat} {n : Int} {c}, At i c →
    (i : Int) + n = j → j ≤ xs.length → Gives (Inv .live) (R.advance n c) (At j)
  distanceTo : R.caps.sizedIter = true → ∀ {i j c d}, At i c → At j d →
    Gives (Inv .live) (R.distanceTo c d) (· = (j : Int) - i)
  distanceToEnd : R.caps.sizedSentinel = true → ∀ {i c e}, At i c → AtEnd e →
    Gives (Inv .live) (R.distanceToEnd c e) (· = (xs.length : Int) - i)
  size : R.caps.sized = true → ∀ phase, Gives (Inv phase) R.size (· = xs.length)
  jumpHook : ∀ {hook}, R.jumpHook = some hook → ∀ {i j : Nat} {n : Int} {c}, At i c →
    (i : Int) + n = j → j ≤ xs.length → (0 ≤ n ∨ R.caps.bidirectional = true) →
    Gives (Inv .live) (hook n c) (At j)

/-- The invariant of a view: that of its base, and of what the view has of its own. -/
def Over {σ κ : Type} (Inv : Phase → σ → Prop) (Idle : σ × κ → Prop) (Own : κ → Prop) :
    Phase → σ × κ → Prop
  | .idle => Idle
  | .live => Both (Inv .live) Own

/-- A view with a cache for what its `begin` returns. -/
abbrev OverCache {σ ι : Type} (Inv : Phase → σ → Prop) (First : ι → Prop) :
    Phase → σ × Option ι → Prop :=
  Over Inv (Caching (Inv .idle) (Inv .live) First) (CacheOf First)

/-- A view without caches. -/
abbrev Uncached {σ : Type} (Inv : Phase → σ → Prop) : Phase → σ × Unit → Prop :=
  Over Inv (Both (Inv .idle) fun _ => True) fun _ => True

/-- What the iterators of the base do leaves the view's own part as it is. -/
theorem Gives.over {σ κ γ : Type} {Inv : Phase → σ → Prop} {Idle : σ × κ → Prop} {Own : κ → Prop}
    {m : Effect σ γ} {Q : γ → Prop} (hm : Gives (Inv .live) m Q) :
    Gives (Over Inv Idle Own .live) (Effect.onFst m) Q := Gives.onFst (K := Own) hm

theorem Gives.uncached {σ γ : Type} {Inv : Phase → σ → Prop} {m : Effect σ γ} {Q : γ → Prop}
    (hm : ∀ phase, Gives (Inv phase) m Q) (phase : Phase) :
    Gives (Uncached Inv phase) (Effect.onFst m) Q := by
  cases phase with
  | idle => exact Gives.onFst (K := fun _ => True) (hm .idle)
  | live => exact Gives.over (hm .live)

/-- The range presents the list. -/
def Lawful (R : RangeModel β) (xs : List β) : Prop :=
  ∃ Inv At AtEnd, Presents R xs Inv At AtEnd

/-- A program on the range, as it comes into being, returns `r`. -/
def Computes {γ : Type} (R : RangeModel β) (m : Effect R.State γ) (r : γ) : Prop :=
  ∃ s, m R.fresh = .ok (r, s)

/-- A program on two ranges, as they come into being, returns `r`. -/
def ComputesBoth {α γ : Type} (R : RangeModel α) (S : RangeModel β)
    (m : Effect (R.State × S.State) γ) (r : γ) : Prop := ∃ s, m (R.fresh, S.fresh) = .ok (r, s)

/-- A range with the list that it presents. -/
structure LawfulRange (β : Type) where
  model : RangeModel β
  elements : List β
  lawful : Lawful model elements

end

namespace RangeModel

variable {β : Type} (R : RangeModel β)

/-- `end` of a range where it is an iterator. -/
def endIter : Effect R.State R.Iter := do
  let e ← R.end_
  .ofExec (R.asIter e)

/-- `it != last`. -/
def notReached (e : R.Sent) (c : R.Iter) : Effect R.State Bool := do
  let b ← R.reached c e
  pure !b

/-- `for(; it != last; ++it) use(*it)`. -/
def collect (e : R.Sent) : Nat → R.Iter → Effect R.State (List β)
  | 0, _ => .ofExec (.error .fuel)
  | fuel + 1, c => do
    if ← R.reached c e then pure []
    else
      let x ← R.read c
      let c ← R.next c
      let xs ← collect e fuel c
      pure (x :: xs)

/-- `for(auto && x : rng) use(x)`. -/
def elements (fuel : Nat) : Effect R.State (List β) := do
  let c ← R.begin
  let e ← R.end_
  R.collect e fuel c

/-- The loop, run `n` times over the same range. -/
def passes (fuel : Nat) : Nat → Effect R.State (List (List β))
  | 0 => pure []
  | n + 1 => do
    let xs ← R.elements fuel
    let rest ← passes fuel n
    pure (xs :: rest)

/-- `while(it != first) use(*--it)`. -/
def collectBack (first : R.Iter) : Nat → R.Iter → Effect R.State (List β)
  | 0, _ => .ofExec (.error .fuel)
  | fuel + 1, c => do
    if ← R.equal c first then pure []
    else
      let c ← R.prev c
      let x ← R.read c
      let xs ← collectBack first fuel c
      pure (x :: xs)

def elementsBack (fuel : Nat) : Effect R.State (List β) := do
  let first ← R.begin
  let last ← R.endIter
  R.collectBack first fuel last

end RangeModel

namespace Presents

variable {β : Type} {R : RangeModel β} {xs : List β} {Inv : Phase → R.State → Prop}
  {At : Nat → R.Iter → Prop} {AtEnd : R.Sent → Prop}

/-- What makes the range live may be done in either phase. -/
theorem gives_of_yields (h : Presents R xs Inv At AtEnd) {α : Type} {m : Effect R.State α}
    {Q : α → Prop} (hm : Yields (Inv .idle) m (Inv .live) Q) (phase : Phase) :
    Gives (Inv phase) m Q := by
  cases phase with
  | idle => exact hm.mono h.idle fun _ ha => ha
  | live => exact hm.weaken h.idle

theorem computes (h : Presents R xs Inv At AtEnd) {γ : Type} {m : Effect R.State γ} {r : γ}
    {phase : Phase} (hm : Yields (Inv .idle) m (Inv phase) (· = r)) : Computes R m r := by
  obtain ⟨_, s, hrun, _, rfl⟩ := hm _ h.fresh
  exact ⟨s, hrun⟩

theorem computesBoth (h : Presents R xs Inv At AtEnd) {α : Type} {S : RangeModel α} {ys : List α}
    {InvS : Phase → S.State → Prop} {AtS : Nat → S.Iter → Prop} {EndS : S.Sent → Prop}
    (h' : Presents S ys InvS AtS EndS) {γ : Type} {m : Effect (R.State × S.State) γ} {r : γ}
    {P : R.State × S.State → Prop}
    (hm : Yields (Both (Inv .idle) (InvS .idle)) m P (· = r)) : ComputesBoth R S m r := by
  obtain ⟨_, s, hrun, _, rfl⟩ := hm (R.fresh, S.fresh) ⟨h.fresh, h'.fresh⟩
  exact ⟨s, hrun⟩

theorem asIter_gives (h : Presents R xs Inv At AtEnd) (hcommon : R.caps.common = true)
    {e : R.Sent} (he : AtEnd e) (phase : Phase) :
    Gives (Inv phase) (.ofExec (R.asIter e)) (At xs.length) := by
  obtain ⟨c, hc, hat⟩ := h.asIter hcommon he
  exact .ofExec hc hat

theorem endIter_gives (h : Presents R xs Inv At AtEnd) (hcommon : R.caps.common = true)
    (phase : Phase) : Gives (Inv phase) R.endIter (At xs.length) :=
  (h.end_ phase).bind fun _ he => h.asIter_gives hcommon he phase

theorem endIter_yields (h : Presents R xs Inv At AtEnd) (hcommon : R.caps.common = true)
    (hbidir : R.caps.bidirectional = true) :
    Yields (Inv .idle) R.endIter (Inv .live) (At xs.length) :=
  (h.endLive hcommon hbidir).bind fun _ he => h.asIter_gives hcommon he .live

/-- `if(it == last) … else …`. -/
theorem branch (h : Presents R xs Inv At AtEnd) {γ : Type} {m m' : Effect R.State γ}
    {Q : γ → Prop} {i : Nat} {c : R.Iter} {e : R.Sent} (hc : At i c) (he : AtEnd e)
    (hend : i = xs.length → Gives (Inv .live) m Q)
    (hmore : i < xs.length → Gives (Inv .live) m' Q) :
    Gives (Inv .live) (do if ← R.reached c e then m else m') Q := by
  have hle := h.le hc
  apply (h.reached hc he).bind
  rintro b rfl
  by_cases heq : i = xs.length
  · rw [decide_eq_true heq, if_pos rfl]
    exact hend heq
  · rw [decide_eq_false heq, if_neg Bool.false_ne_true]
    exact hmore (Nat.lt_of_le_of_ne hle heq)

theorem notReached (h : Presents R xs Inv At AtEnd) {i : Nat} {c : R.Iter} {e : R.Sent}
    (hc : At i c) (he : AtEnd e) :
    Gives (Inv .live) (R.notReached e c) fun b => b = decide (i ≠ xs.length) := by
  apply (h.reached hc he).bind
  rintro b rfl
  exact .pure (decide_not ..).symm

theorem collect (h : Presents R xs Inv At AtEnd) {e : R.Sent} (he : AtEnd e) {fuel i : Nat}
    {c : R.Iter} (hc : At i c) (hfuel : xs.length - i < fuel) :
    Gives (Inv .live) (R.collect e fuel c) fun ys => ys = xs.drop i := by
  induction fuel generalizing i c with
  | zero => omega
  | succ fuel ih =>
    apply h.branch hc he
    · intro hend
      rw [List.drop_of_length_le (Nat.le_of_eq hend.symm)]
      exact .pure rfl
    · intro hlt
      rw [List.drop_eq_getElem_cons hlt]
      apply (h.read hc (List.getElem?_eq_getElem hlt)).bind
      rintro x rfl
      apply (h.next hc hlt).bind
      intro c' hc'
      apply (ih hc' (by omega)).bind
      rintro ys rfl
      exact .pure rfl

/-- The `for` loop over the range reads the list. -/
theorem elements (h : Presents R xs Inv At AtEnd) {fuel : Nat} (hfuel : xs.length < fuel) :
    Yields (Inv .idle) (R.elements fuel) (Inv .live) fun ys => ys = xs := by
  apply h.begin.bind
  intro c hc
  apply (h.end_ .live).bind
  intro e he
  exact h.collect he hc (Nat.lt_of_le_of_lt (Nat.sub_le _ _) hfuel)

theorem passes (h : Presents R xs Inv At AtEnd) {fuel : Nat} (hfuel : xs.length < fuel) (n : Nat) :
    Gives (Inv .idle) (R.passes fuel n) fun rs => rs = List.replicate n xs := by
  induction n with
  | zero => exact .pure rfl
  | succ n ih =>
    apply Gives.bind ((h.elements hfuel).mono h.idle fun _ hys => hys)
    rintro ys rfl
    apply ih.bind
    rintro rs rfl
    exact .pure rfl

theorem collectBack (h : Presents R xs Inv At AtEnd) (hbidir : R.caps.bidirectional = true)
    {first : R.Iter} (hfirst : At 0 first) {fuel i : Nat} {c : R.Iter} (hc : At i c)
    (hfuel : i < fuel) :
    Gives (Inv .live) (R.collectBack first fuel c) fun ys => ys = (xs.take i).reverse := by
  induction fuel generalizing i c with
  | zero => omega
  | succ fuel ih =>
    apply (h.equal hc hfirst).bind
    rintro b rfl
    cases i with
    | zero => exact .pure rfl
    | succ i =>
      have hlt : i < xs.length := h.le hc
      rw [List.take_succ_eq_append_getElem hlt, List.reverse_append]
      apply (h.prev hbidir hc).bind
      intro c' hc'
      apply (h.read hc' (List.getElem?_eq_getElem hlt)).bind
      rintro x rfl
      apply (ih hc' (Nat.lt_of_succ_lt_succ hfuel)).bind
      rintro ys rfl
      exact .pure rfl

/-- The loop back from `end` reads the list in reverse. -/
theorem elementsBack (h : Presents R xs Inv At AtEnd) (hbidir : R.caps.bidirectional = true)
    (hcommon : R.caps.common = true) {fuel : Nat} (hfuel : xs.length < fuel) :
    Yields (Inv .idle) (R.elementsBack fuel) (Inv .live) fun ys => ys = xs.reverse := by
  apply h.begin.bind
  intro first hfirst
  apply (h.endIter_gives hcommon .live).bind
  intro last hlast
  have hback := h.collectBack hbidir hfirst hlast hfuel
  rwa [List.take_length] at hback

end Presents

end EARanges.Support
