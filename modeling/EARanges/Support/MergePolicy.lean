import EARanges.Support.Numbered

/-!
# Merging two lists under a policy

Two lists are compared head against head. A policy says which of the two heads is
emitted and which passed over when the first is less, greater or equal, and what happens
to the rest of one list when the other is used up. `Emits` is what such a merge emits. A
program that writes everything at once follows it turn by turn (`Writes.returns`); a
cursor that stops at each element stands at a turn that emits (`Resumes.delivers`), to which
a loop of its own takes it (`Settles.run`).
-/
namespace EARanges.Support

/-- What a merge does at a state. -/
inductive Turn (σ γ : Type) where
  | stop
  | skip (s : σ)
  | emit (x : γ) (s : σ)

/-- The same turn, what it emits converted. -/
def Turn.map {σ γ δ : Type} (f : γ → δ) : Turn σ γ → Turn σ δ
  | .stop => .stop
  | .skip s => .skip s
  | .emit x s => .emit (f x) s

/-- The conversions of the elements that are emitted; `none` where they are passed over. -/
structure MergePolicy (α β γ : Type) where
  rest1 : Option (α → γ)
  rest2 : Option (β → γ)
  less : Option (α → γ)
  greater : Option (β → γ)
  equal : Option (α → γ)

section
variable {σ γ : Type}

inductive Emits (turn : σ → Turn σ γ) : σ → List γ → Prop
  | stop {s : σ} (h : turn s = .stop) : Emits turn s []
  | skip {s s' : σ} {zs : List γ} (h : turn s = .skip s') (hrest : Emits turn s' zs) :
    Emits turn s zs
  | emit {s s' : σ} {x : γ} {zs : List γ} (h : turn s = .emit x s') (hrest : Emits turn s' zs) :
    Emits turn s (x :: zs)

/-- The next state that is not passed over. -/
inductive Skips (turn : σ → Turn σ γ) : σ → σ → Prop
  | here {s : σ} (h : ∀ s', turn s ≠ .skip s') : Skips turn s s
  | skip {s s' s'' : σ} (h : turn s = .skip s') (hrest : Skips turn s' s'') : Skips turn s s''

variable {turn : σ → Turn σ γ}

theorem Emits.unique {s : σ} {zs zs' : List γ} (h : Emits turn s zs) (h' : Emits turn s zs') :
    zs = zs' := by
  induction h generalizing zs' with
  | stop hturn =>
    cases h' with
    | stop => rfl
    | skip hturn' => rw [hturn] at hturn'; cases hturn'
    | emit hturn' => rw [hturn] at hturn'; cases hturn'
  | skip hturn _ ih =>
    cases h' with
    | stop hturn' => rw [hturn] at hturn'; cases hturn'
    | skip hturn' hrest =>
      rw [hturn] at hturn'
      cases hturn'
      exact ih hrest
    | emit hturn' => rw [hturn] at hturn'; cases hturn'
  | emit hturn _ ih =>
    cases h' with
    | stop hturn' => rw [hturn] at hturn'; cases hturn'
    | skip hturn' => rw [hturn] at hturn'; cases hturn'
    | emit hturn' hrest =>
      rw [hturn] at hturn'
      cases hturn'
      rw [ih hrest]

theorem Emits.of_skip {s s' : σ} {zs : List γ} (h : Emits turn s zs) (hturn : turn s = .skip s') :
    Emits turn s' zs := by
  cases h with
  | stop hturn' => rw [hturn] at hturn'; cases hturn'
  | skip hturn' hrest =>
    rw [hturn] at hturn'
    cases hturn'
    exact hrest
  | emit hturn' => rw [hturn] at hturn'; cases hturn'

theorem Emits.of_emit {s s' : σ} {x : γ} {zs : List γ} (h : Emits turn s zs)
    (hturn : turn s = .emit x s') : ∃ zs', zs = x :: zs' ∧ Emits turn s' zs' := by
  cases h with
  | stop hturn' => rw [hturn] at hturn'; cases hturn'
  | skip hturn' => rw [hturn] at hturn'; cases hturn'
  | emit hturn' hrest =>
    rw [hturn] at hturn'
    cases hturn'
    exact ⟨_, rfl, hrest⟩

theorem Emits.of_skips {s s' : σ} {zs : List γ} (h : Emits turn s zs) (hskips : Skips turn s s') :
    Emits turn s' zs := by
  induction hskips with
  | here => exact h
  | skip hturn _ ih => exact ih (h.of_skip hturn)

theorem Skips.not_skip {s s' : σ} (h : Skips turn s s') : ∀ s'', turn s' ≠ .skip s'' := by
  induction h with
  | here hturn => exact hturn
  | skip _ _ ih => exact ih

theorem Emits.map {δ : Type} {turn' : σ → Turn σ δ} {f : γ → δ}
    (hturn : ∀ s, turn' s = (turn s).map f) {s : σ} {zs : List γ} (h : Emits turn s zs) :
    Emits turn' s (zs.map f) := by
  induction h with
  | @stop s hstop =>
    have hs := hturn s
    rw [hstop] at hs
    exact .stop hs
  | @skip s _ _ hskip _ ih =>
    have hs := hturn s
    rw [hskip] at hs
    exact .skip hs ih
  | @emit s _ _ _ hemit _ ih =>
    have hs := hturn s
    rw [hemit] at hs
    exact .emit hs ih

/-- A merge whose turns use something up comes to an end. -/
theorem exists_emits (measure : σ → Nat)
    (hskip : ∀ s s', turn s = .skip s' → measure s' < measure s)
    (hemit : ∀ s x s', turn s = .emit x s' → measure s' < measure s) (s : σ) :
    ∃ zs, Emits turn s zs := by
  induction hm : measure s using Nat.strongRecOn generalizing s with
  | ind m ih =>
    subst hm
    cases hturn : turn s with
    | stop => exact ⟨[], .stop hturn⟩
    | skip s' =>
      obtain ⟨zs, hzs⟩ := ih _ (hskip s s' hturn) s' rfl
      exact ⟨zs, .skip hturn hzs⟩
    | emit x s' =>
      obtain ⟨zs, hzs⟩ := ih _ (hemit s x s' hturn) s' rfl
      exact ⟨x :: zs, .emit hturn hzs⟩

/-- What is asked of a cursor at a turn that emits `x` and leads to `s'`. -/
def Emitted {τ : Type} (turn : σ → Turn σ γ) (l : Loop τ γ) (R : σ → τ → Prop) (c : τ) (x : γ)
    (s' : σ) : Prop :=
  l.atEnd c = .ok false ∧ l.read c = .ok x ∧
    ∃ c' s'', l.next c = .ok c' ∧ Skips turn s' s'' ∧ R s'' c'

/-- The step of the cursor is a move over `x` and a run of the loop that settles again. -/
theorem Emitted.of_run {τ : Type} {l : Loop τ γ} {R : σ → τ → Prop} {c : τ} {x : γ} {s' : σ}
    {run : Exec τ} (hend : l.atEnd c = .ok false) (hread : l.read c = .ok x)
    (hnext : l.next c = run)
    (hrun : ∃ c' s'', run = .ok c' ∧ Skips turn s' s'' ∧ R s'' c') : Emitted turn l R c x s' := by
  refine ⟨hend, hread, ?_⟩
  rw [hnext]
  exact hrun

/-- A cursor that settles at the turns that emit: `R s c` says that it stands at `s`. -/
structure Resumes {τ : Type} (turn : σ → Turn σ γ) (first : σ) (l : Loop τ γ)
    (R : σ → τ → Prop) : Prop where
  start : ∃ c s, l.start = .ok c ∧ Skips turn first s ∧ R s c
  stop : ∀ s c, R s c → turn s = .stop → l.atEnd c = .ok true
  emit : ∀ s c x s', R s c → turn s = .emit x s' → Emitted turn l R c x s'

theorem Resumes.delivers {τ : Type} {first : σ} {l : Loop τ γ} {R : σ → τ → Prop} {zs : List γ}
    (h : Resumes turn first l R) (hzs : Emits turn first zs) : l.Delivers zs := by
  have hnumbers : l.Numbers zs fun i c => i ≤ zs.length ∧
      ∃ s, R s c ∧ Emits turn s (zs.drop i) ∧ ∀ s', turn s ≠ .skip s' := by
    have hturn : ∀ {i : Nat} {s : σ}, Emits turn s (zs.drop i) → (∀ s', turn s ≠ .skip s') →
        ∀ hi : i < zs.length, ∃ s', turn s = .emit zs[i] s' ∧ Emits turn s' (zs.drop (i + 1)) := by
      intro i s hemits hskip hi
      rw [List.drop_eq_getElem_cons hi] at hemits
      cases hemits with
      | skip hturn => exact absurd hturn (hskip _)
      | emit hturn hrest => exact ⟨_, hturn, hrest⟩
    refine ⟨⟨?_, ?_⟩, ?_, ?_⟩
    · obtain ⟨c, s, hstart, hskips, hR⟩ := h.start
      exact ⟨c, hstart, Nat.zero_le _, s, hR, hzs.of_skips hskips, hskips.not_skip⟩
    · rintro i c ⟨_, s, hR, hemits, hskip⟩ hi
      obtain ⟨s', hemit, hrest⟩ := hturn hemits hskip hi
      obtain ⟨_, _, c', s'', hnext, hskips, hR'⟩ := h.emit s c _ s' hR hemit
      exact ⟨c', hnext, hi, s'', hR', hrest.of_skips hskips, hskips.not_skip⟩
    · rintro i c ⟨hi, s, hR, hemits, hskip⟩
      by_cases hend : i = zs.length
      · rw [List.drop_of_length_le (Nat.le_of_eq hend.symm)] at hemits
        cases hemits with
        | stop hstop => rw [h.stop s c hR hstop, decide_eq_true hend]
        | skip hturn => exact absurd hturn (hskip _)
      · obtain ⟨s', hemit, _⟩ := hturn hemits hskip (Nat.lt_of_le_of_ne hi hend)
        rw [(h.emit s c _ s' hR hemit).1, decide_eq_false hend]
    · rintro i c x ⟨_, s, hR, hemits, hskip⟩ hx
      obtain ⟨hi, rfl⟩ := List.getElem?_eq_some_iff.mp hx
      obtain ⟨s', hemit, _⟩ := hturn hemits hskip hi
      exact (h.emit s c _ s' hR hemit).2.1
  exact hnumbers.delivers

end

namespace MergePolicy

variable {α β γ : Type}

/-- Emits the element, or passes over it. -/
def keep {δ σ : Type} : Option (δ → γ) → δ → σ → Turn σ γ
  | some f, x, s => .emit (f x) s
  | none, _, s => .skip s

/-- Emits the element, or ends. -/
def orStop {δ σ : Type} : Option (δ → γ) → δ → σ → Turn σ γ
  | some f, x, s => .emit (f x) s
  | none, _, _ => .stop

/-- The turn of a merge of `xs` from index `i` and `ys` from index `j`. -/
def turn (p : MergePolicy α β γ) (compare : α → β → Ordering) (xs : List α) (ys : List β) :
    Nat × Nat → Turn (Nat × Nat) γ
  | (i, j) =>
    match xs[i]?, ys[j]? with
    | some x, some y =>
      match compare x y with
      | .lt => keep p.less x (i + 1, j)
      | .gt => keep p.greater y (i, j + 1)
      | .eq => keep p.equal x (i + 1, j + 1)
    | some x, none => orStop p.rest1 x (i + 1, j)
    | none, some y => orStop p.rest2 y (i, j + 1)
    | none, none => .stop

/-- The elements left of one list when the other is used up. -/
def restOf {δ : Type} : Option (δ → γ) → List δ → List γ
  | some f, rest => rest.map f
  | none, _ => []

variable {p : MergePolicy α β γ} {compare : α → β → Ordering} {xs : List α} {ys : List β}

theorem turn_both {i j : Nat} (hi : i < xs.length) (hj : j < ys.length) :
    turn p compare xs ys (i, j) =
      match compare xs[i] ys[j] with
      | .lt => keep p.less xs[i] (i + 1, j)
      | .gt => keep p.greater ys[j] (i, j + 1)
      | .eq => keep p.equal xs[i] (i + 1, j + 1) := by
  rw [turn, List.getElem?_eq_getElem hi, List.getElem?_eq_getElem hj]

theorem turn_lt {i j : Nat} (hi : i < xs.length) (hj : j < ys.length)
    (h : compare xs[i] ys[j] = .lt) :
    turn p compare xs ys (i, j) = keep p.less xs[i] (i + 1, j) := by
  rw [turn_both hi hj, h]

theorem turn_gt {i j : Nat} (hi : i < xs.length) (hj : j < ys.length)
    (h : compare xs[i] ys[j] = .gt) :
    turn p compare xs ys (i, j) = keep p.greater ys[j] (i, j + 1) := by
  rw [turn_both hi hj, h]

theorem turn_eq {i j : Nat} (hi : i < xs.length) (hj : j < ys.length)
    (h : compare xs[i] ys[j] = .eq) :
    turn p compare xs ys (i, j) = keep p.equal xs[i] (i + 1, j + 1) := by
  rw [turn_both hi hj, h]

theorem turn_rest1 {i j : Nat} (hi : i < xs.length) (hj : ys.length ≤ j) :
    turn p compare xs ys (i, j) = orStop p.rest1 xs[i] (i + 1, j) := by
  rw [turn, List.getElem?_eq_getElem hi, List.getElem?_eq_none hj]

theorem turn_rest2 {i j : Nat} (hi : xs.length ≤ i) (hj : j < ys.length) :
    turn p compare xs ys (i, j) = orStop p.rest2 ys[j] (i, j + 1) := by
  rw [turn, List.getElem?_eq_none hi, List.getElem?_eq_getElem hj]

theorem turn_end {i j : Nat} (hi : xs.length ≤ i) (hj : ys.length ≤ j) :
    turn p compare xs ys (i, j) = .stop := by
  rw [turn, List.getElem?_eq_none hi, List.getElem?_eq_none hj]

/-- Which of the six turns of the merge this is. -/
inductive TurnCase (p : MergePolicy α β γ) (compare : α → β → Ordering) (xs : List α)
    (ys : List β) (i j : Nat) : Prop
  | lt (hi : i < xs.length) (hj : j < ys.length) (hcompare : compare xs[i] ys[j] = .lt)
    (hturn : turn p compare xs ys (i, j) = keep p.less xs[i] (i + 1, j))
  | gt (hi : i < xs.length) (hj : j < ys.length) (hcompare : compare xs[i] ys[j] = .gt)
    (hturn : turn p compare xs ys (i, j) = keep p.greater ys[j] (i, j + 1))
  | eq (hi : i < xs.length) (hj : j < ys.length) (hcompare : compare xs[i] ys[j] = .eq)
    (hturn : turn p compare xs ys (i, j) = keep p.equal xs[i] (i + 1, j + 1))
  | rest1 (hi : i < xs.length) (hj : ys.length ≤ j)
    (hturn : turn p compare xs ys (i, j) = orStop p.rest1 xs[i] (i + 1, j))
  | rest2 (hi : xs.length ≤ i) (hj : j < ys.length)
    (hturn : turn p compare xs ys (i, j) = orStop p.rest2 ys[j] (i, j + 1))
  | ended (hi : xs.length ≤ i) (hj : ys.length ≤ j) (hturn : turn p compare xs ys (i, j) = .stop)

theorem turnCase (p : MergePolicy α β γ) (compare : α → β → Ordering) (xs : List α) (ys : List β)
    (i j : Nat) : TurnCase p compare xs ys i j := by
  rcases Nat.lt_or_ge i xs.length with hi | hi
  · rcases Nat.lt_or_ge j ys.length with hj | hj
    · cases hcompare : compare xs[i] ys[j] with
      | lt => exact .lt hi hj hcompare (turn_lt hi hj hcompare)
      | gt => exact .gt hi hj hcompare (turn_gt hi hj hcompare)
      | eq => exact .eq hi hj hcompare (turn_eq hi hj hcompare)
    · exact .rest1 hi hj (turn_rest1 hi hj)
  · rcases Nat.lt_or_ge j ys.length with hj | hj
    · exact .rest2 hi hj (turn_rest2 hi hj)
    · exact .ended hi hj (turn_end hi hj)

/-- What is left of both lists. -/
def remaining (xs : List α) (ys : List β) (s : Nat × Nat) : Nat :=
  (xs.length - s.1) + (ys.length - s.2)

theorem keep_state {δ σ : Type} {f : Option (δ → γ)} {x : δ} {s s' : σ}
    (h : keep f x s = .skip s' ∨ ∃ z, keep f x s = .emit z s') : s' = s := by
  cases f <;> obtain h | ⟨_, h⟩ := h <;> cases h <;> rfl

theorem orStop_state {δ σ : Type} {f : Option (δ → γ)} {x : δ} {s s' : σ}
    (h : orStop f x s = .skip s' ∨ ∃ z, orStop f x s = .emit z s') : s' = s := by
  cases f <;> obtain h | ⟨_, h⟩ := h <;> cases h
  rfl

theorem remaining_lt {s s' : Nat × Nat}
    (h : turn p compare xs ys s = .skip s' ∨ ∃ z, turn p compare xs ys s = .emit z s') :
    remaining xs ys s' < remaining xs ys s := by
  obtain ⟨i, j⟩ := s
  unfold remaining
  cases turnCase p compare xs ys i j with
  | lt hi hj _ hturn | gt hi hj _ hturn | eq hi hj _ hturn =>
    rw [hturn] at h
    rw [keep_state h]
    dsimp only
    omega
  | rest1 hi hj hturn | rest2 hi hj hturn =>
    rw [hturn] at h
    rw [orStop_state h]
    dsimp only
    omega
  | ended hi hj hturn =>
    rw [hturn] at h
    obtain h | ⟨_, h⟩ := h <;> cases h

/-- Every merge comes to an end. -/
theorem exists_emitted (p : MergePolicy α β γ) (compare : α → β → Ordering) (xs : List α)
    (ys : List β) (s : Nat × Nat) : ∃ zs, Emits (turn p compare xs ys) s zs :=
  exists_emits (remaining xs ys) (fun _ _ h => remaining_lt (.inl h))
    (fun _ _ _ h => remaining_lt (.inr ⟨_, h⟩)) s

/-- A list that is handed on from `i`, where `place` is the state at each index. -/
theorem emits_restOf {δ σ : Type} {take : σ → Turn σ γ} {g : Option (δ → γ)} {l : List δ}
    (place : Nat → σ) (hend : ∀ i, l.length ≤ i → take (place i) = .stop)
    (hturn : ∀ i (hi : i < l.length), take (place i) = orStop g l[i] (place (i + 1)))
    (i : Nat) : Emits take (place i) (restOf g (l.drop i)) := by
  induction hk : l.length - i generalizing i with
  | zero =>
    have hi : l.length ≤ i := by omega
    have hnone : restOf g (l.drop i) = [] := by
      rw [List.drop_of_length_le hi]
      cases g <;> rfl
    rw [hnone]
    exact .stop (hend i hi)
  | succ k ih =>
    have hi : i < l.length := by omega
    have hrest := ih (i + 1) (by omega)
    have hhere := hturn i hi
    cases g with
    | none => exact .stop hhere
    | some f =>
      rw [List.drop_eq_getElem_cons hi]
      exact .emit hhere hrest

theorem emits_rest1 {i j : Nat} (hj : ys.length ≤ j) :
    Emits (turn p compare xs ys) (i, j) (restOf p.rest1 (xs.drop i)) :=
  emits_restOf (fun i => (i, j)) (fun _ hi => turn_end hi hj) (fun _ hi => turn_rest1 hi hj) i

theorem emits_rest2 {i j : Nat} (hi : xs.length ≤ i) :
    Emits (turn p compare xs ys) (i, j) (restOf p.rest2 (ys.drop j)) :=
  emits_restOf (fun j => (i, j)) (fun _ hj => turn_end hi hj) (fun _ hj => turn_rest2 hi hj) j

/-! ## Conversion of what is emitted -/

/-- Emits `f z` where `p` emits `z`. -/
def map {δ : Type} (f : γ → δ) (p : MergePolicy α β γ) : MergePolicy α β δ where
  rest1 := p.rest1.map (f ∘ ·)
  rest2 := p.rest2.map (f ∘ ·)
  less := p.less.map (f ∘ ·)
  greater := p.greater.map (f ∘ ·)
  equal := p.equal.map (f ∘ ·)

theorem keep_map {δ ε σ : Type} (f : γ → ε) (g : Option (δ → γ)) (x : δ) (s : σ) :
    keep (g.map (f ∘ ·)) x s = (keep g x s).map f := by
  cases g <;> rfl

theorem orStop_map {δ ε σ : Type} (f : γ → ε) (g : Option (δ → γ)) (x : δ) (s : σ) :
    orStop (g.map (f ∘ ·)) x s = (orStop g x s).map f := by
  cases g <;> rfl

theorem turn_map {δ : Type} (f : γ → δ) (s : Nat × Nat) :
    turn (p.map f) compare xs ys s = (turn p compare xs ys s).map f := by
  obtain ⟨i, j⟩ := s
  rcases Nat.lt_or_ge i xs.length with hi | hi
  · rcases Nat.lt_or_ge j ys.length with hj | hj
    · rw [turn_both hi hj, turn_both hi hj]
      cases compare xs[i] ys[j] with
      | lt => exact keep_map f p.less _ _
      | gt => exact keep_map f p.greater _ _
      | eq => exact keep_map f p.equal _ _
    · rw [turn_rest1 hi hj, turn_rest1 hi hj]
      exact orStop_map f p.rest1 _ _
  · rcases Nat.lt_or_ge j ys.length with hj | hj
    · rw [turn_rest2 hi hj, turn_rest2 hi hj]
      exact orStop_map f p.rest2 _ _
    · rw [turn_end hi hj, turn_end hi hj]
      rfl

/-! ## Programs that write everything at once -/

/-- One turn of a loop that appends what it emits to `out`. -/
def follow {ρ : Type} (loop : Nat × Nat → List γ → Exec ρ) (out : List γ) :
    Turn (Nat × Nat) γ → Exec ρ
  | .stop => .error .fault
  | .skip s => loop s out
  | .emit z s => loop s (out ++ [z])

/-- A loop that makes the turns of the merge while both lists last, and then writes what
is left, has written in the end what the merge emits. -/
structure Writes {ρ : Type} (p : MergePolicy α β γ) (compare : α → β → Ordering) (xs : List α)
    (ys : List β) (loop : Nat → Nat × Nat → List γ → Exec ρ) (result : List γ → ρ) : Prop where
  turn : ∀ fuel i j out, i < xs.length → j < ys.length →
    loop (fuel + 1) (i, j) out = follow (loop fuel) out (turn p compare xs ys (i, j))
  rest1 : ∀ fuel i out, i < xs.length →
    loop (fuel + 1) (i, ys.length) out = .ok (result (out ++ restOf p.rest1 (xs.drop i)))
  rest2 : ∀ fuel j out, j ≤ ys.length →
    loop (fuel + 1) (xs.length, j) out = .ok (result (out ++ restOf p.rest2 (ys.drop j)))

theorem Writes.result_eq {ρ : Type} {loop : Nat → Nat × Nat → List γ → Exec ρ}
    {result : List γ → ρ} {fuel i j : Nat} {out zs : List γ}
    (h : Writes p compare xs ys loop result)
    (hi : i ≤ xs.length) (hj : j ≤ ys.length) (hfuel : remaining xs ys (i, j) < fuel)
    (hzs : Emits (MergePolicy.turn p compare xs ys) (i, j) zs) :
    loop fuel (i, j) out = .ok (result (out ++ zs)) := by
  induction fuel generalizing i j out zs with
  | zero => omega
  | succ fuel ih =>
    rcases Nat.lt_or_eq_of_le hi with hlt1 | rfl
    · rcases Nat.lt_or_eq_of_le hj with hlt2 | rfl
      · rw [h.turn fuel i j out hlt1 hlt2]
        have hkeep : ∀ {δ : Type} {f : Option (δ → γ)} {x : δ} {i' j' : Nat},
            MergePolicy.turn p compare xs ys (i, j) = keep f x (i', j') → i' ≤ xs.length →
            j' ≤ ys.length → remaining xs ys (i', j') < fuel →
            follow (loop fuel) out (keep f x (i', j')) = .ok (result (out ++ zs)) := by
          intro δ f x i' j' hturn hi' hj' hfuel'
          cases f with
          | none => exact ih hi' hj' hfuel' (hzs.of_skip hturn)
          | some f =>
            obtain ⟨zs', rfl, hrest⟩ := hzs.of_emit hturn
            rw [keep, follow, ih hi' hj' hfuel' hrest, List.append_assoc]
            rfl
        unfold remaining at hfuel hkeep
        dsimp only at hfuel hkeep
        cases hcompare : compare xs[i] ys[j] with
        | lt =>
          have hturn := turn_lt (p := p) hlt1 hlt2 hcompare
          rw [hturn]
          exact hkeep hturn hlt1 hj (by omega)
        | gt =>
          have hturn := turn_gt (p := p) hlt1 hlt2 hcompare
          rw [hturn]
          exact hkeep hturn hi hlt2 (by omega)
        | eq =>
          have hturn := turn_eq (p := p) hlt1 hlt2 hcompare
          rw [hturn]
          exact hkeep hturn hlt1 hlt2 (by omega)
      · rw [h.rest1 fuel i out hlt1, (emits_rest1 (Nat.le_refl _)).unique hzs]
    · rw [h.rest2 fuel j out hj, (emits_rest2 (Nat.le_refl _)).unique hzs]

theorem Writes.returns {ρ : Type} {loop : Nat → Nat × Nat → List γ → Exec ρ}
    {result : List γ → ρ} {zs : List γ} (h : Writes p compare xs ys loop result)
    (hzs : Emits (MergePolicy.turn p compare xs ys) (0, 0) zs) :
    Returns (fun fuel => loop fuel (0, 0) []) (result zs) :=
  ⟨remaining xs ys (0, 0) + 1, fun _ hfuel =>
    h.result_eq (Nat.zero_le _) (Nat.zero_le _) hfuel hzs⟩

/-! ## Loops of a cursor -/

theorem keep_skip {δ σ : Type} {f : Option (δ → γ)} {x : δ} {s s' : σ} (h : keep f x s = .skip s') :
    s' = s := keep_state (.inl h)

theorem orStop_skip {δ σ : Type} {f : Option (δ → γ)} {x : δ} {s s' : σ} :
    orStop f x s ≠ .skip s' := by
  cases f <;> exact nofun

/-- Only a turn that compares two heads passes one over. -/
theorem turn_skip {i j : Nat} {s' : Nat × Nat} (h : turn p compare xs ys (i, j) = .skip s') :
    s'.1 ≤ xs.length ∧ s'.2 ≤ ys.length := by
  cases turnCase p compare xs ys i j with
  | lt hi hj _ hturn =>
    rw [hturn] at h
    rw [keep_skip h]
    exact ⟨hi, Nat.le_of_lt hj⟩
  | gt hi hj _ hturn =>
    rw [hturn] at h
    rw [keep_skip h]
    exact ⟨Nat.le_of_lt hi, hj⟩
  | eq hi hj _ hturn =>
    rw [hturn] at h
    rw [keep_skip h]
    exact ⟨hi, hj⟩
  | rest1 hi hj hturn | rest2 hi hj hturn =>
    rw [hturn] at h
    exact absurd h orStop_skip
  | ended hi hj hturn =>
    rw [hturn] at h
    cases h

theorem not_skip_of_end {i j : Nat} (h : xs.length ≤ i ∨ ys.length ≤ j) (s' : Nat × Nat) :
    turn p compare xs ys (i, j) ≠ .skip s' := by
  cases turnCase p compare xs ys i j with
  | lt hi hj | gt hi hj | eq hi hj => omega
  | rest1 hi hj hturn | rest2 hi hj hturn =>
    rw [hturn]
    exact orStop_skip
  | ended hi hj hturn =>
    rw [hturn]
    exact nofun

/-- A loop that makes the turns that emit nothing; at another turn it leaves a cursor
that `R` relates to the state. -/
def Settles {τ : Type} (p : MergePolicy α β γ) (compare : α → β → Ordering) (xs : List α)
    (ys : List β) (satisfy : Nat → Nat × Nat → Exec τ) (R : Nat × Nat → τ → Prop) : Prop :=
  ∀ fuel i j, i ≤ xs.length → j ≤ ys.length →
    (∃ s', turn p compare xs ys (i, j) = .skip s' ∧ satisfy (fuel + 1) (i, j) = satisfy fuel s') ∨
    ((∀ s', turn p compare xs ys (i, j) ≠ .skip s') ∧
      ∃ c, satisfy (fuel + 1) (i, j) = .ok c ∧ R (i, j) c)

theorem Settles.run {τ : Type} {satisfy : Nat → Nat × Nat → Exec τ} {R : Nat × Nat → τ → Prop}
    (h : Settles p compare xs ys satisfy R) {fuel i j : Nat} (hi : i ≤ xs.length)
    (hj : j ≤ ys.length) (hfuel : xs.length + ys.length < fuel) :
    ∃ c s', satisfy fuel (i, j) = .ok c ∧ Skips (turn p compare xs ys) (i, j) s' ∧ R s' c := by
  have hrun : ∀ fuel i j, i ≤ xs.length → j ≤ ys.length → remaining xs ys (i, j) < fuel →
      ∃ c s', satisfy fuel (i, j) = .ok c ∧ Skips (turn p compare xs ys) (i, j) s' ∧ R s' c := by
    intro fuel
    induction fuel with
    | zero =>
      intro i j _ _ hfuel
      omega
    | succ fuel ih =>
      intro i j hi hj hfuel
      rcases h fuel i j hi hj with ⟨⟨i', j'⟩, hturn, hstep⟩ | ⟨hturn, c, hstep, hR⟩
      · have hlt := remaining_lt (.inl hturn)
        have hbounds := turn_skip hturn
        obtain ⟨c, s'', hsat, hskips, hR⟩ := ih i' j' hbounds.1 hbounds.2 (by omega)
        exact ⟨c, s'', hstep.trans hsat, .skip hturn hskips, hR⟩
      · exact ⟨c, (i, j), hstep, .here hturn, hR⟩
  have hle : remaining xs ys (i, j) ≤ xs.length + ys.length := by
    unfold remaining
    omega
  exact hrun fuel i j hi hj (by omega)

end MergePolicy

end EARanges.Support
