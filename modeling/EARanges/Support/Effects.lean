import EARanges.Support.Exec

/-!
# Programs on a state that may fault

`Yields P m P' Q`: from a state of `P` the program `m` returns, into a state of `P'` and with a
result of `Q`; it neither faults nor runs out of fuel. There is one rule for each way of building
a program: results, sequences, parts of the state, loops, and a cache that is filled on first use.
-/
namespace EARanges.Support

abbrev Effect (σ α : Type) := StateT σ Exec α

namespace Effect

variable {σ κ α β : Type}

def ofExec (x : Exec α) : Effect σ α := fun s => do
  let a ← x
  .ok (a, s)

def fault : Effect σ α := ofExec (.error .fault)

/-- An assertion. -/
def require (p : Prop) [Decidable p] : Effect σ Unit := if p then pure () else fault

/-- A program on the first part of the state. -/
def onFst (m : Effect σ α) : Effect (σ × κ) α := fun s => do
  let (a, base) ← m s.1
  .ok (a, base, s.2)

/-- A program on the second part of the state. -/
def onSnd (m : Effect κ α) : Effect (σ × κ) α := fun s => do
  let (a, own) ← m s.2
  .ok (a, s.1, own)

/-- A program on each part of the state. -/
def onEach (m : Effect σ α) (m' : Effect κ β) : Effect (σ × κ) (α × β) := do
  let a ← onFst m
  let b ← onSnd m'
  pure (a, b)

/-- The value in the cache, computed and put there if there is none. -/
def memo (m : Effect σ α) : Effect (σ × Option α) α := fun s =>
  match s.2 with
  | some a => .ok (a, s)
  | none => do
    let (a, base) ← m s.1
    .ok (a, base, some a)

/-- The value in the cache, which there must be. -/
def memoised : Effect (σ × Option α) α := fun s =>
  match s.2 with
  | some a => .ok (a, s)
  | none => .error .fault

/-- `while(go(c)) c = step(c)`. -/
def whileLoop (go : α → Effect σ Bool) (step : α → Effect σ α) : Nat → α → Effect σ α
  | 0, _ => ofExec (.error .fuel)
  | fuel + 1, c => do
    if ← go c then
      let c ← step c
      whileLoop go step fuel c
    else pure c

/-- `for(; n != 0; --n) c = step(c)`. -/
def repeatStep (step : α → Effect σ α) : Nat → α → Effect σ α
  | 0, c => pure c
  | n + 1, c => do
    let c ← step c
    repeatStep step n c

/-- `for(; n != 0 && go(c); --n) c = step(c)`, with what is left of `n`. -/
def boundedLoop (go : α → Effect σ Bool) (step : α → Effect σ α) :
    Nat → α → Effect σ (α × Nat)
  | 0, c => pure (c, 0)
  | n + 1, c => do
    if ← go c then
      let c ← step c
      boundedLoop go step n c
    else pure (c, n + 1)

end Effect

def Yields {σ α : Type} (P : σ → Prop) (m : Effect σ α) (P' : σ → Prop) (Q : α → Prop) : Prop :=
  ∀ s, P s → ∃ a s', m s = .ok (a, s') ∧ P' s' ∧ Q a

/-- The program keeps the invariant and returns a result of `Q`. -/
def Gives {σ α : Type} (Inv : σ → Prop) (m : Effect σ α) (Q : α → Prop) : Prop :=
  Yields Inv m Inv Q

section
variable {σ κ α β : Type} {P P' P'' Inv : σ → Prop} {Q Q' : α → Prop} {R : β → Prop}

theorem Yields.mono {m : Effect σ α} (h : Yields P m P' Q) (hstate : ∀ s, P' s → P'' s)
    (hresult : ∀ a, Q a → Q' a) : Yields P m P'' Q' := by
  intro s hs
  obtain ⟨a, s', hrun, hs', ha⟩ := h s hs
  exact ⟨a, s', hrun, hstate s' hs', hresult a ha⟩

theorem Yields.weaken {m : Effect σ α} (h : Yields P m P' Q) (hstate : ∀ s, P'' s → P s) :
    Yields P'' m P' Q := fun s hs => h s (hstate s hs)

theorem Yields.bind {m : Effect σ α} {f : α → Effect σ β} (h : Yields P m P' Q)
    (hf : ∀ a, Q a → Yields P' (f a) P'' R) : Yields P (m >>= f) P'' R := by
  intro s hs
  obtain ⟨a, s', hrun, hs', ha⟩ := h s hs
  obtain ⟨b, s'', hrest, hs'', hb⟩ := hf a ha s' hs'
  refine ⟨b, s'', ?_, hs'', hb⟩
  change (m s >>= fun p => f p.1 p.2) = _
  rw [hrun, exec_bind_ok]
  exact hrest

theorem Gives.pure {a : α} (h : Q a) : Gives Inv (Pure.pure a) Q :=
  fun s hs => ⟨a, s, rfl, hs, h⟩

theorem Gives.ofExec {x : Exec α} {a : α} (hx : x = .ok a) (h : Q a) :
    Gives Inv (Effect.ofExec x) Q := by
  intro s hs
  refine ⟨a, s, ?_, hs, h⟩
  rw [Effect.ofExec, hx]
  rfl

theorem Gives.require {p : Prop} [Decidable p] (h : p) :
    Gives Inv (Effect.require p) fun _ => True := by
  rw [Effect.require, if_pos h]
  exact .pure trivial

theorem Gives.mono {m : Effect σ α} (h : Gives Inv m Q) (hresult : ∀ a, Q a → Q' a) :
    Gives Inv m Q' := Yields.mono h (fun _ hs => hs) hresult

theorem Gives.bind {m : Effect σ α} {f : α → Effect σ β} (h : Gives Inv m Q)
    (hf : ∀ a, Q a → Gives Inv (f a) R) : Gives Inv (m >>= f) R := Yields.bind h hf

/-! ## Parts of the state -/

/-- A condition on either part of the state. -/
def Both (P : σ → Prop) (K : κ → Prop) (s : σ × κ) : Prop := P s.1 ∧ K s.2

theorem Yields.onFst {K : κ → Prop} {m : Effect σ α} (h : Yields P m P' Q) :
    Yields (Both P K) (Effect.onFst m) (Both P' K) Q := by
  intro s hs
  obtain ⟨a, base, hrun, hbase, ha⟩ := h s.1 hs.1
  refine ⟨a, (base, s.2), ?_, ⟨hbase, hs.2⟩, ha⟩
  rw [Effect.onFst, hrun]
  rfl

theorem Gives.onFst {K : κ → Prop} {m : Effect σ α} (h : Gives Inv m Q) :
    Gives (Both Inv K) (Effect.onFst m) Q := Yields.onFst h

theorem Yields.onSnd {K K' : κ → Prop} {m : Effect κ α} (h : Yields K m K' Q) :
    Yields (Both P K) (Effect.onSnd m) (Both P K') Q := by
  intro s hs
  obtain ⟨a, own, hrun, hown, ha⟩ := h s.2 hs.2
  refine ⟨a, (s.1, own), ?_, ⟨hs.1, hown⟩, ha⟩
  rw [Effect.onSnd, hrun]
  rfl

theorem Yields.onEach {K K' : κ → Prop} {m : Effect σ α} {m' : Effect κ β}
    (h : Yields P m P' Q) (h' : Yields K m' K' R) :
    Yields (Both P K) (Effect.onEach m m') (Both P' K') fun r => Q r.1 ∧ R r.2 := by
  apply h.onFst.bind
  intro a ha
  apply h'.onSnd.bind
  intro b hb
  exact Gives.pure ⟨ha, hb⟩

theorem Gives.onEach {K : κ → Prop} {m : Effect σ α} {m' : Effect κ β} (h : Gives Inv m Q)
    (h' : Gives K m' R) :
    Gives (Both Inv K) (Effect.onEach m m') fun r => Q r.1 ∧ R r.2 := Yields.onEach h h'

/-! ## Caches -/

/-- What is in the cache, if anything, satisfies `Q`. -/
def CacheOf (Q : α → Prop) (cache : Option α) : Prop := ∀ a, cache = some a → Q a

/-- There is something in the cache, and it satisfies `Q`. -/
def Filled (Q : α → Prop) (cache : Option α) : Prop := ∃ a, cache = some a ∧ Q a

theorem Filled.cacheOf {cache : Option α} (h : Filled Q cache) : CacheOf Q cache := by
  obtain ⟨a, rfl, ha⟩ := h
  intro b hb
  rwa [← Option.some.inj hb]

/-- A state of `P` with a cache that is empty, or has been filled when the state came to `P'`. -/
def Caching (P P' : σ → Prop) (Q : α → Prop) (s : σ × Option α) : Prop :=
  P s.1 ∧ ∀ a, s.2 = some a → P' s.1 ∧ Q a

theorem caching_of_empty {s : σ} (h : P s) : Caching P P' Q (s, none) :=
  ⟨h, fun _ hnone => nomatch hnone⟩

theorem caching_of_both {s : σ × Option α} (hsub : ∀ s, P' s → P s) (h : Both P' (CacheOf Q) s) :
    Caching P P' Q s := ⟨hsub s.1 h.1, fun a ha => ⟨h.1, h.2 a ha⟩⟩

theorem Yields.memo {m : Effect σ α} (h : Yields P m P' Q) :
    Yields (Caching P P' Q) (Effect.memo m) (Both P' (Filled Q)) Q := by
  rintro ⟨base, cache⟩ ⟨hbase, hcache⟩
  cases cache with
  | some a =>
    obtain ⟨hlive, ha⟩ := hcache a rfl
    exact ⟨a, _, rfl, ⟨hlive, a, rfl, ha⟩, ha⟩
  | none =>
    obtain ⟨a, base', hrun, hbase', ha⟩ := h base hbase
    refine ⟨a, (base', some a), ?_, ⟨hbase', a, rfl, ha⟩, ha⟩
    change (m base >>= fun p => Except.ok (p.1, p.2, some p.1)) = _
    rw [hrun]
    rfl

theorem Gives.memo {m : Effect σ α} : Gives (Both Inv (Filled Q)) (Effect.memo m) Q := by
  rintro ⟨base, cache⟩ ⟨hbase, a, rfl, ha⟩
  exact ⟨a, _, rfl, ⟨hbase, a, rfl, ha⟩, ha⟩

theorem Gives.memoised : Gives (Both Inv (Filled Q)) Effect.memoised Q := by
  rintro ⟨base, cache⟩ ⟨hbase, a, rfl, ha⟩
  exact ⟨a, _, rfl, ⟨hbase, a, rfl, ha⟩, ha⟩

/-- What keeps `P` as well as `P'` does not disturb the cache. -/
theorem Gives.caching {m : Effect σ β} (h : Gives P m R) (h' : Gives P' m R)
    (hsub : ∀ s, P' s → P s) : Gives (Caching P P' Q) (Effect.onFst m) R := by
  rintro ⟨base, cache⟩ ⟨hbase, hcache⟩
  cases cache with
  | none =>
    obtain ⟨b, base', hrun, hbase', hb⟩ := h base hbase
    refine ⟨b, (base', none), ?_, caching_of_empty hbase', hb⟩
    rw [Effect.onFst, hrun]
    rfl
  | some a =>
    obtain ⟨hlive, ha⟩ := hcache a rfl
    obtain ⟨b, base', hrun, hbase', hb⟩ := h' base hlive
    refine ⟨b, (base', some a), ?_, ⟨hsub base' hbase', ?_⟩, hb⟩
    · rw [Effect.onFst, hrun]
      rfl
    · intro a' ha'
      rw [← Option.some.inj ha']
      exact ⟨hbase', ha⟩

theorem Yields.caching {m : Effect σ β} (h : Yields P m P' R) :
    Yields (Caching P P' Q) (Effect.onFst m) (Both P' (CacheOf Q)) R := by
  rintro ⟨base, cache⟩ ⟨hbase, hcache⟩
  obtain ⟨b, base', hrun, hbase', hb⟩ := h base hbase
  refine ⟨b, (base', cache), ?_, ⟨hbase', fun a ha => (hcache a ha).2⟩, hb⟩
  rw [Effect.onFst, hrun]
  rfl

/-! ## Loops -/

variable {go : α → Effect σ Bool} {step : α → Effect σ α}

/-- `left k c`: the loop will be left after `k` more steps. -/
theorem Gives.whileLoop (left : Nat → α → Prop)
    (hgo : ∀ k c, left k c → Gives Inv (go c) fun b => b = decide (k ≠ 0))
    (hstep : ∀ k c, left (k + 1) c → Gives Inv (step c) (left k)) {k fuel : Nat} {c : α}
    (hc : left k c) (hfuel : k < fuel) : Gives Inv (Effect.whileLoop go step fuel c) (left 0) := by
  induction fuel generalizing k c with
  | zero => omega
  | succ fuel ih =>
    apply Gives.bind (hgo k c hc)
    rintro b rfl
    cases k with
    | zero => exact .pure hc
    | succ k => exact .bind (hstep k c hc) fun c' hc' => ih hc' (by omega)

theorem Gives.repeatStep (left : Nat → α → Prop)
    (hstep : ∀ k c, left (k + 1) c → Gives Inv (step c) (left k)) {k n : Nat} {c : α}
    (hc : left (k + n) c) : Gives Inv (Effect.repeatStep step n c) (left k) := by
  induction n generalizing c with
  | zero => exact .pure hc
  | succ n ih => exact .bind (hstep (k + n) c hc) fun c' hc' => ih hc'

/-- Either the bound is met, or all steps are made. -/
theorem Gives.boundedLoop (left : Nat → α → Prop)
    (hgo : ∀ k c, left k c → Gives Inv (go c) fun b => b = decide (k ≠ 0))
    (hstep : ∀ k c, left (k + 1) c → Gives Inv (step c) (left k)) {k n : Nat} {c : α}
    (hc : left k c) :
    Gives Inv (Effect.boundedLoop go step n c) fun r => left (k - n) r.1 ∧ r.2 = n - k := by
  induction n generalizing k c with
  | zero => exact .pure ⟨hc, (Nat.zero_sub k).symm⟩
  | succ n ih =>
    apply Gives.bind (hgo k c hc)
    rintro b rfl
    cases k with
    | zero => exact .pure ⟨by rwa [Nat.zero_sub], rfl⟩
    | succ k =>
      apply Gives.bind (hstep k c hc)
      intro c' hc'
      apply (ih hc').mono
      intro r hr
      rwa [Nat.add_sub_add_right, Nat.add_sub_add_right]

end

end EARanges.Support
