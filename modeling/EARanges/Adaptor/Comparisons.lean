import EARanges.Adaptor.Folds
import EARanges.Support.Lexicographic
import EARanges.Support.Pairing

/-!
# Comparisons of any two ranges

algorithm/mismatch.hpp, algorithm/equal.hpp, algorithm/starts_with.hpp, algorithm/ends_with.hpp
and algorithm/lexicographical_compare.hpp, the loops of `equal` and `lexicographical_compare` being
those of EASTL/algorithm.h, and numeric/inner_product.hpp. The two ranges may be of different
kinds; `equal` compares their sizes first if both have one. Predicates are taken with their
projections.
-/
namespace EARanges.Adaptor
open EARanges.Support

variable {α β γ δ : Type}

section
variable (R : RangeModel α) (S : RangeModel β) (fuel : Nat)

/-- `it.1 != last0 && it.2 != last1`. -/
def bothLeft (last0 : R.Sent) (last1 : S.Sent) (it : R.Iter × S.Iter) :
    Effect (R.State × S.State) Bool := do
  if ← Effect.onFst (R.reached it.1 last0) then pure false
  else
    let b ← Effect.onSnd (S.reached it.2 last1)
    pure !b

/-- `pred(*it.1, *it.2)`. -/
def pairAt (pred : α → β → Bool) (it : R.Iter × S.Iter) : Effect (R.State × S.State) Bool := do
  let (x, y) ← Effect.onEach (R.read it.1) (S.read it.2)
  pure (pred x y)

/-- `++it.1, ++it.2`. -/
def nextBoth (it : R.Iter × S.Iter) : Effect (R.State × S.State) (R.Iter × S.Iter) :=
  Effect.onEach (R.next it.1) (S.next it.2)

def mismatchLoop (pred : α → β → Bool) (last0 : R.Sent) (last1 : S.Sent) :
    Nat → R.Iter × S.Iter → Effect (R.State × S.State) (R.Iter × S.Iter)
  | 0, _ => .ofExec (.error .fuel)
  | fuel + 1, it => do
    if ← bothLeft R S last0 last1 it then
      if ← pairAt R S pred it then
        let it ← nextBoth R S it
        mismatchLoop pred last0 last1 fuel it
      else pure it
    else pure it

def equalLoop (pred : α → β → Bool) (last0 : R.Sent) (last1 : S.Sent) :
    Nat → R.Iter × S.Iter → Effect (R.State × S.State) Bool
  | 0, _ => .ofExec (.error .fuel)
  | fuel + 1, it => do
    if ← bothLeft R S last0 last1 it then
      if ← pairAt R S pred it then
        let it ← nextBoth R S it
        equalLoop pred last0 last1 fuel it
      else pure false
    else if ← Effect.onFst (R.reached it.1 last0) then Effect.onSnd (S.reached it.2 last1)
    else pure false

/-- `equal(begin0, end0, begin1, end1)`. -/
def equalEnds (pred : α → β → Bool) (last0 : R.Sent) (last1 : S.Sent) (it : R.Iter × S.Iter) :
    Effect (R.State × S.State) Bool :=
  if R.caps.sizedSentinel && S.caps.sizedSentinel then do
    let (m, n) ← Effect.onEach (iterDistance R fuel it.1 last0) (iterDistance S fuel it.2 last1)
    if m ≠ n then pure false else equalLoop R S pred last0 last1 fuel it
  else equalLoop R S pred last0 last1 fuel it

/-- `f(begin(rng0), end(rng0), begin(rng1), end(rng1))`. -/
def withBothEnds (f : R.Sent → S.Sent → R.Iter × S.Iter → Effect (R.State × S.State) γ) :
    Effect (R.State × S.State) γ := do
  let first ← Effect.onEach R.begin S.begin
  let (last0, last1) ← Effect.onEach R.end_ S.end_
  f last0 last1 first

/-- `equal(rng0, rng1)`. -/
def equal (pred : α → β → Bool) : Effect (R.State × S.State) Bool :=
  if R.caps.sized && S.caps.sized then do
    let (m, n) ← Effect.onEach (distance R fuel) (distance S fuel)
    if m ≠ n then pure false
    else withBothEnds R S fun last0 last1 it => equalLoop R S pred last0 last1 fuel it
  else withBothEnds R S fun last0 last1 it => equalLoop R S pred last0 last1 fuel it

def startsWith (pred : α → β → Bool) : Effect (R.State × S.State) Bool :=
  withBothEnds R S fun last0 last1 it => do
    let it ← mismatchLoop R S pred last0 last1 fuel it
    Effect.onSnd (S.reached it.2 last1)

def endsWith (pred : α → β → Bool) : Effect (R.State × S.State) Bool := do
  let (m, n) ← Effect.onEach (distance R fuel) (distance S fuel)
  if m - n < 0 then pure false
  else withBothEnds R S fun last0 last1 it => do
    let first ← Effect.onFst (advanceN R (m - n) it.1)
    equalEnds R S fuel pred last0 last1 (first, it.2)

def lexicographicalCompareLoop (pred : γ → γ → Bool) (proj0 : α → γ) (proj1 : β → γ)
    (last0 : R.Sent) (last1 : S.Sent) :
    Nat → R.Iter × S.Iter → Effect (R.State × S.State) Bool
  | 0, _ => .ofExec (.error .fuel)
  | fuel + 1, it => do
    if ← Effect.onSnd (S.reached it.2 last1) then
      if ← Effect.onFst (R.reached it.1 last0) then
        let b ← Effect.onSnd (S.reached it.2 last1)
        pure !b
      else pure false
    else if ← Effect.onFst (R.reached it.1 last0) then pure true
    else if ← pairAt R S (fun x y => pred (proj0 x) (proj1 y)) it then pure true
    else if ← pairAt R S (fun x y => pred (proj1 y) (proj0 x)) it then pure false
    else
      let it ← nextBoth R S it
      lexicographicalCompareLoop pred proj0 proj1 last0 last1 fuel it

def lexicographicalCompare (pred : γ → γ → Bool) (proj0 : α → γ) (proj1 : β → γ) :
    Effect (R.State × S.State) Bool :=
  withBothEnds R S fun last0 last1 it =>
    lexicographicalCompareLoop R S pred proj0 proj1 last0 last1 fuel it

def innerProductLoop (bop1 : γ → δ → γ) (bop2 : α → β → δ) (last0 : R.Sent) (last1 : S.Sent) :
    Nat → R.Iter × S.Iter → γ → Effect (R.State × S.State) γ
  | 0, _, _ => .ofExec (.error .fuel)
  | fuel + 1, it, init => do
    if ← bothLeft R S last0 last1 it then
      let (x, y) ← Effect.onEach (R.read it.1) (S.read it.2)
      let it ← nextBoth R S it
      innerProductLoop bop1 bop2 last0 last1 fuel it (bop1 init (bop2 x y))
    else pure init

def innerProduct (init : γ) (bop1 : γ → δ → γ) (bop2 : α → β → δ) :
    Effect (R.State × S.State) γ :=
  withBothEnds R S fun last0 last1 it => innerProductLoop R S bop1 bop2 last0 last1 fuel it init

end

section
variable {R : RangeModel α} {S : RangeModel β} {xs : List α} {ys : List β}
  {InvR : Phase → R.State → Prop} {AtR : Nat → R.Iter → Prop} {EndR : R.Sent → Prop}
  {InvS : Phase → S.State → Prop} {AtS : Nat → S.Iter → Prop} {EndS : S.Sent → Prop}
  {fuel i j : Nat} {it : R.Iter × S.Iter} {last0 : R.Sent} {last1 : S.Sent}
  {pred : α → β → Bool}

/-- A position in each list. -/
def PairAt {ι ι' : Type} (AtR : Nat → ι → Prop) (AtS : Nat → ι' → Prop) (i j : Nat)
    (it : ι × ι') : Prop := AtR i it.1 ∧ AtS j it.2

theorem withBothEnds_yields (h : Presents R xs InvR AtR EndR) (h' : Presents S ys InvS AtS EndS)
    {f : R.Sent → S.Sent → R.Iter × S.Iter → Effect (R.State × S.State) γ} {Q : γ → Prop}
    (hf : ∀ e e' it, EndR e → EndS e' → PairAt AtR AtS 0 0 it →
      Gives (Both (InvR .live) (InvS .live)) (f e e' it) Q) :
    Yields (Both (InvR .idle) (InvS .idle)) (withBothEnds R S f)
      (Both (InvR .live) (InvS .live)) Q := by
  apply (h.begin.onEach h'.begin).bind
  intro it hit
  apply ((h.end_ .live).onEach (h'.end_ .live)).bind
  intro e he
  exact hf e.1 e.2 it he.1 he.2 hit

theorem bothLeft_branch (h : Presents R xs InvR AtR EndR) (h' : Presents S ys InvS AtS EndS)
    (hit : PairAt AtR AtS i j it) (hlast0 : EndR last0) (hlast1 : EndS last1)
    {m m' : Effect (R.State × S.State) γ} {Q : γ → Prop}
    (hmore : i < xs.length → j < ys.length → Gives (Both (InvR .live) (InvS .live)) m Q)
    (hend : i = xs.length ∨ j = ys.length → Gives (Both (InvR .live) (InvS .live)) m' Q) :
    Gives (Both (InvR .live) (InvS .live))
      (do if ← bothLeft R S last0 last1 it then m else m') Q := by
  have hi := h.le hit.1
  have hj := h'.le hit.2
  have hleft : Gives (Both (InvR .live) (InvS .live)) (bothLeft R S last0 last1 it)
      (· = decide (i < xs.length ∧ j < ys.length)) := by
    apply (h.reached hit.1 hlast0).onFst.bind
    rintro b rfl
    by_cases heq : i = xs.length
    · rw [decide_eq_true heq, if_pos rfl]
      exact Gives.pure (decide_eq_false (by omega)).symm
    · rw [decide_eq_false heq, if_neg Bool.false_ne_true]
      apply (h'.reached hit.2 hlast1).onSnd.bind
      rintro b rfl
      refine Gives.pure ?_
      rw [← decide_not]
      exact decide_eq_decide.mpr (by omega)
  apply hleft.bind
  rintro b rfl
  split
  next hlt =>
    obtain ⟨hi, hj⟩ := of_decide_eq_true hlt
    exact hmore hi hj
  next hnot => exact hend (by simp only [decide_eq_true_iff] at hnot; omega)

theorem pairAt_gives (h : Presents R xs InvR AtR EndR) (h' : Presents S ys InvS AtS EndS)
    (pred : α → β → Bool) (hit : PairAt AtR AtS i j it) {x : α} {y : β} (hx : xs[i]? = some x)
    (hy : ys[j]? = some y) :
    Gives (Both (InvR .live) (InvS .live)) (pairAt R S pred it) (· = pred x y) := by
  apply ((h.read hit.1 hx).onEach (h'.read hit.2 hy)).bind
  rintro ⟨x, y⟩ ⟨rfl, rfl⟩
  exact Gives.pure rfl

theorem nextBoth_gives (h : Presents R xs InvR AtR EndR) (h' : Presents S ys InvS AtS EndS)
    (hit : PairAt AtR AtS i j it) (hi : i < xs.length) (hj : j < ys.length) :
    Gives (Both (InvR .live) (InvS .live)) (nextBoth R S it) (PairAt AtR AtS (i + 1) (j + 1)) :=
  (h.next hit.1 hi).onEach (h'.next hit.2 hj)

theorem mismatchLoop_gives (h : Presents R xs InvR AtR EndR) (h' : Presents S ys InvS AtS EndS)
    (hlast0 : EndR last0) (hlast1 : EndS last1) {fuel i j : Nat} {it : R.Iter × S.Iter}
    (hit : PairAt AtR AtS i j it) (hfuel : xs.length - i < fuel) :
    Gives (Both (InvR .live) (InvS .live)) (mismatchLoop R S pred last0 last1 fuel it)
      (PairAt AtR AtS (i + matchLength pred (xs.drop i) (ys.drop j))
        (j + matchLength pred (xs.drop i) (ys.drop j))) := by
  induction fuel generalizing i j it with
  | zero => omega
  | succ fuel ih =>
    apply bothLeft_branch h h' hit hlast0 hlast1
    · intro hi hj
      have hx := List.getElem?_eq_getElem hi
      have hy := List.getElem?_eq_getElem hj
      rw [matchLength_drop hx hy]
      apply (pairAt_gives h h' pred hit hx hy).bind
      rintro b rfl
      split
      next =>
        apply (nextBoth_gives h h' hit hi hj).bind
        intro it' hit'
        have hrun := ih hit' (by omega)
        rwa [Nat.add_right_comm, Nat.add_right_comm j] at hrun
      next => exact Gives.pure hit
    · intro hend
      rw [matchLength_drop_end hend]
      exact Gives.pure hit

theorem equalLoop_gives (pred : α → β → Bool) (h : Presents R xs InvR AtR EndR)
    (h' : Presents S ys InvS AtS EndS) (hlast0 : EndR last0) (hlast1 : EndS last1)
    {fuel i j : Nat} {it : R.Iter × S.Iter} (hit : PairAt AtR AtS i j it)
    (hfuel : xs.length - i < fuel) :
    Gives (Both (InvR .live) (InvS .live)) (equalLoop R S pred last0 last1 fuel it) fun b =>
      b = true ↔ List.Forall₂ (fun x y => pred x y = true) (xs.drop i) (ys.drop j) := by
  induction fuel generalizing i j it with
  | zero => omega
  | succ fuel ih =>
    apply bothLeft_branch h h' hit hlast0 hlast1
    · intro hi hj
      rw [List.drop_eq_getElem_cons hi, List.drop_eq_getElem_cons hj, List.forall₂_cons]
      apply (pairAt_gives h h' pred hit (List.getElem?_eq_getElem hi)
        (List.getElem?_eq_getElem hj)).bind
      rintro b rfl
      split
      next hpair =>
        apply (nextBoth_gives h h' hit hi hj).bind
        intro it' hit'
        apply (ih hit' (by omega)).mono
        intro b hb
        rw [hb, and_iff_right hpair]
      next hpair => exact Gives.pure (iff_of_false Bool.false_ne_true fun hall => hpair hall.1)
    · intro hend
      have hi := h.le hit.1
      have hj := h'.le hit.2
      apply (h.reached hit.1 hlast0).onFst.bind
      rintro b rfl
      by_cases hi' : i = xs.length
      · rw [decide_eq_true hi', if_pos rfl, hi', List.drop_length, List.forall₂_nil_left_iff,
          List.drop_eq_nil_iff]
        apply Gives.mono (h'.reached hit.2 hlast1).onSnd
        rintro b rfl
        rw [decide_eq_true_iff]
        omega
      · rw [decide_eq_false hi', if_neg Bool.false_ne_true, hend.resolve_left hi',
          List.drop_length, List.forall₂_nil_right_iff, List.drop_eq_nil_iff]
        exact Gives.pure (iff_of_false Bool.false_ne_true (by omega))

/-- Ranges of different lengths are unequal, so the sizes may be compared first. -/
theorem equalEnds_gives (h : Presents R xs InvR AtR EndR) (h' : Presents S ys InvS AtS EndS)
    (hfuel : xs.length < fuel) (hfuel' : ys.length < fuel) (hlast0 : EndR last0)
    (hlast1 : EndS last1) (hit : PairAt AtR AtS i j it) :
    Gives (Both (InvR .live) (InvS .live)) (equalEnds R S fuel pred last0 last1 it) fun b =>
      b = true ↔ List.Forall₂ (fun x y => pred x y = true) (xs.drop i) (ys.drop j) := by
  have hloop := equalLoop_gives pred h h' hlast0 hlast1 hit
    (Nat.lt_of_le_of_lt (Nat.sub_le _ i) hfuel)
  have hi := h.le hit.1
  have hj := h'.le hit.2
  unfold equalEnds
  split
  next =>
    apply ((iterDistance_gives h hit.1 hlast0 hfuel).onEach
      (iterDistance_gives h' hit.2 hlast1 hfuel')).bind
    rintro ⟨m, n⟩ ⟨rfl, rfl⟩
    dsimp only
    split
    next hne =>
      refine Gives.pure (iff_of_false Bool.false_ne_true fun hall => hne ?_)
      have hlength := hall.length_eq
      simp only [List.length_drop] at hlength
      omega
    next => exact hloop
  next => exact hloop

theorem equal_yields (pred : α → β → Bool) (h : Presents R xs InvR AtR EndR)
    (h' : Presents S ys InvS AtS EndS) (hfuel : xs.length < fuel) (hfuel' : ys.length < fuel) :
    Yields (Both (InvR .idle) (InvS .idle)) (equal R S fuel pred)
      (Both (InvR .idle) (InvS .idle)) fun b =>
        b = true ↔ List.Forall₂ (fun x y => pred x y = true) xs ys := by
  have hidle : ∀ s, Both (InvR .live) (InvS .live) s → Both (InvR .idle) (InvS .idle) s :=
    fun s hs => ⟨h.idle s.1 hs.1, h'.idle s.2 hs.2⟩
  have hloop := withBothEnds_yields h h' (Q := fun b => b = true ↔
      List.Forall₂ (fun x y => pred x y = true) xs ys) fun e e' it he he' hit =>
    equalLoop_gives pred h h' he he' hit hfuel
  unfold equal
  split
  next =>
    apply ((distance_gives h hfuel .idle).onEach (distance_gives h' hfuel' .idle)).bind
    rintro ⟨m, n⟩ ⟨rfl, rfl⟩
    dsimp only
    split
    next hne =>
      refine Gives.pure (iff_of_false Bool.false_ne_true fun hall => hne ?_)
      rw [hall.length_eq]
    next => exact hloop.mono hidle fun _ hb => hb
  next => exact hloop.mono hidle fun _ hb => hb

theorem startsWith_yields (pred : α → β → Bool) (h : Presents R xs InvR AtR EndR)
    (h' : Presents S ys InvS AtS EndS) (hfuel : xs.length < fuel) :
    Yields (Both (InvR .idle) (InvS .idle)) (startsWith R S fuel pred)
      (Both (InvR .live) (InvS .live)) fun b =>
        b = true ↔ ∃ zs, zs <+: xs ∧ List.Forall₂ (fun x y => pred x y = true) zs ys := by
  apply withBothEnds_yields h h'
  intro e e' it he he' hit
  apply (mismatchLoop_gives h h' he he' hit hfuel).bind
  intro it hit
  rw [List.drop_zero, List.drop_zero, Nat.zero_add] at hit
  apply Gives.mono (h'.reached hit.2 he').onSnd
  rintro b rfl
  rw [decide_eq_true_iff]
  exact matchLength_eq_right_iff

theorem endsWith_yields (pred : α → β → Bool) (h : Presents R xs InvR AtR EndR)
    (h' : Presents S ys InvS AtS EndS) (hfuel : xs.length < fuel) (hfuel' : ys.length < fuel) :
    Yields (Both (InvR .idle) (InvS .idle)) (endsWith R S fuel pred)
      (Both (InvR .idle) (InvS .idle)) fun b =>
        b = true ↔ ∃ zs, zs <:+ xs ∧ List.Forall₂ (fun x y => pred x y = true) zs ys := by
  have hidle : ∀ s, Both (InvR .live) (InvS .live) s → Both (InvR .idle) (InvS .idle) s :=
    fun s hs => ⟨h.idle s.1 hs.1, h'.idle s.2 hs.2⟩
  apply ((distance_gives h hfuel .idle).onEach (distance_gives h' hfuel' .idle)).bind
  rintro ⟨m, n⟩ ⟨rfl, rfl⟩
  dsimp only
  split
  next hshort =>
    refine Gives.pure (iff_of_false Bool.false_ne_true ?_)
    rintro ⟨zs, hsuffix, hall⟩
    have hlength := hall.length_eq
    have hle := hsuffix.length_le
    omega
  next hlong =>
    refine Yields.mono ?_ hidle fun _ hb => hb
    apply withBothEnds_yields h h'
    intro e e' it he he' hit
    have hback : (0 : Int) + ((xs.length : Int) - ys.length) = (xs.length - ys.length : Nat) := by
      omega
    apply (advanceN_gives h hit.1 hback (Nat.sub_le _ _) (.inl (by omega))).onFst.bind
    intro first hfirst
    have hit' : PairAt AtR AtS (xs.length - ys.length) 0 (first, it.2) := ⟨hfirst, hit.2⟩
    apply (equalEnds_gives h h' hfuel hfuel' he he' hit').mono
    intro b hb
    rw [hb, List.drop_zero]
    exact forall₂_drop_iff_suffix

theorem lexicographicalCompareLoop_gives (h : Presents R xs InvR AtR EndR)
    (h' : Presents S ys InvS AtS EndS) (pred : γ → γ → Bool) (proj0 : α → γ) (proj1 : β → γ)
    (hlast0 : EndR last0) (hlast1 : EndS last1) {fuel i j : Nat} {it : R.Iter × S.Iter}
    (hit : PairAt AtR AtS i j it) (hfuel : xs.length - i < fuel) :
    Gives (Both (InvR .live) (InvS .live))
      (lexicographicalCompareLoop R S pred proj0 proj1 last0 last1 fuel it)
      (· = lexLt pred ((xs.drop i).map proj0) ((ys.drop j).map proj1)) := by
  induction fuel generalizing i j it with
  | zero => omega
  | succ fuel ih =>
    have hi := h.le hit.1
    have hj := h'.le hit.2
    apply (h'.reached hit.2 hlast1).onSnd.bind
    rintro b rfl
    by_cases hj' : j = ys.length
    · have hnever : lexLt pred ((xs.drop i).map proj0) ((ys.drop j).map proj1) = false := by
        rw [List.drop_of_length_le (Nat.le_of_eq hj'.symm)]
        cases (xs.drop i).map proj0 <;> rfl
      rw [decide_eq_true hj', if_pos rfl, hnever]
      apply (h.reached hit.1 hlast0).onFst.bind
      rintro b rfl
      split
      next =>
        apply (h'.reached hit.2 hlast1).onSnd.bind
        rintro b rfl
        rw [decide_eq_true hj']
        exact Gives.pure rfl
      next => exact Gives.pure rfl
    · have hj'' : j < ys.length := by omega
      rw [decide_eq_false hj', if_neg Bool.false_ne_true, List.drop_eq_getElem_cons hj'']
      apply (h.reached hit.1 hlast0).onFst.bind
      rintro b rfl
      by_cases hi' : i = xs.length
      · rw [decide_eq_true hi', if_pos rfl, List.drop_of_length_le (Nat.le_of_eq hi'.symm)]
        exact Gives.pure rfl
      · have hi'' : i < xs.length := by omega
        have hx := List.getElem?_eq_getElem hi''
        have hy := List.getElem?_eq_getElem hj''
        rw [decide_eq_false hi', if_neg Bool.false_ne_true, List.drop_eq_getElem_cons hi'',
          List.map_cons, List.map_cons, lexLt]
        apply (pairAt_gives h h' _ hit hx hy).bind
        rintro b rfl
        by_cases hless : pred (proj0 xs[i]) (proj1 ys[j])
        · rw [if_pos hless, hless]
          exact Gives.pure rfl
        · rw [if_neg hless, eq_false_of_ne_true hless, Bool.false_or]
          apply (pairAt_gives h h' _ hit hx hy).bind
          rintro b rfl
          by_cases hmore : pred (proj1 ys[j]) (proj0 xs[i])
          · rw [if_pos hmore, hmore]
            exact Gives.pure rfl
          · rw [if_neg hmore, eq_false_of_ne_true hmore, Bool.not_false, Bool.true_and]
            apply (nextBoth_gives h h' hit hi'' hj'').bind
            intro it' hit'
            exact ih hit' (by omega)

theorem lexicographicalCompare_yields (h : Presents R xs InvR AtR EndR)
    (h' : Presents S ys InvS AtS EndS) (hfuel : xs.length < fuel) (pred : γ → γ → Bool)
    (proj0 : α → γ) (proj1 : β → γ) :
    Yields (Both (InvR .idle) (InvS .idle)) (lexicographicalCompare R S fuel pred proj0 proj1)
      (Both (InvR .live) (InvS .live)) (· = lexLt pred (xs.map proj0) (ys.map proj1)) := by
  apply withBothEnds_yields h h'
  intro e e' it he he' hit
  exact lexicographicalCompareLoop_gives h h' pred proj0 proj1 he he' hit hfuel

theorem innerProductLoop_gives (h : Presents R xs InvR AtR EndR) (h' : Presents S ys InvS AtS EndS)
    (bop1 : γ → δ → γ) (bop2 : α → β → δ) (hlast0 : EndR last0) (hlast1 : EndS last1)
    {fuel i j : Nat} {it : R.Iter × S.Iter} (hit : PairAt AtR AtS i j it)
    (hfuel : xs.length - i < fuel) (init : γ) :
    Gives (Both (InvR .live) (InvS .live))
      (innerProductLoop R S bop1 bop2 last0 last1 fuel it init)
      (· = (List.zipWith bop2 (xs.drop i) (ys.drop j)).foldl bop1 init) := by
  induction fuel generalizing i j it init with
  | zero => omega
  | succ fuel ih =>
    apply bothLeft_branch h h' hit hlast0 hlast1
    · intro hi hj
      rw [List.drop_eq_getElem_cons hi, List.drop_eq_getElem_cons hj]
      apply ((h.read hit.1 (List.getElem?_eq_getElem hi)).onEach
        (h'.read hit.2 (List.getElem?_eq_getElem hj))).bind
      rintro ⟨x, y⟩ ⟨rfl, rfl⟩
      apply (nextBoth_gives h h' hit hi hj).bind
      intro it' hit'
      exact ih hit' (by omega) _
    · rintro (rfl | rfl)
      · rw [List.drop_length, List.zipWith_nil_left]
        exact Gives.pure rfl
      · rw [List.drop_length, List.zipWith_nil_right]
        exact Gives.pure rfl

theorem innerProduct_yields (h : Presents R xs InvR AtR EndR) (h' : Presents S ys InvS AtS EndS)
    (hfuel : xs.length < fuel) (init : γ) (bop1 : γ → δ → γ) (bop2 : α → β → δ) :
    Yields (Both (InvR .idle) (InvS .idle)) (innerProduct R S fuel init bop1 bop2)
      (Both (InvR .live) (InvS .live)) (· = (List.zipWith bop2 xs ys).foldl bop1 init) := by
  apply withBothEnds_yields h h'
  intro e e' it he he' hit
  exact innerProductLoop_gives h h' bop1 bop2 he he' hit hfuel init

end

end EARanges.Adaptor
