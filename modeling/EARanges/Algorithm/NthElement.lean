import EARanges.Algorithm.SelectionSort
import EARanges.Support.Scan
import Mathlib.Logic.Relation

/-!
# `nth_element`

algorithm/nth_element.hpp. A turn of the outer loop is a function of the range
`[first, last)` in which the element is looked for. Where the first element is equivalent
to the median and no element is smaller, the elements equivalent to the first are gathered
in front and the second part is searched. The `continue` that should start the next turn
there stands in an inner loop and only starts the search for a guard again, from the end of
the gathered part downward (`guardLoop`).
-/
namespace EARanges.Algorithm
open EARanges.Support

variable {α κ : Type}

/-- The range that is left to search. -/
structure NthState (α : Type) where
  list : List α
  first : Nat
  last : Nat

/-- What a turn of the outer loop ends with. -/
inductive NthTurn (α : Type) where
  | done (l : List α)
  | again (s : NthState α)

/-- `++n_swaps`. -/
def incSwaps (nSwaps : Nat) : Nat := (nSwaps + 1) % 0x100000000

section
variable (pred : κ → κ → Bool) (proj : α → κ)

/-! ## The partition around the first element -/

/-- From `i` to an element that is greater than the first, up to `j`. -/
def skipEqual (l : List α) (first j : Nat) : Nat → Nat → Exec (Option Nat)
  | 0, _ => .error .fuel
  | fuel + 1, i =>
    if i = j then .ok none
    else do
      if ← lessAt pred proj l first i then .ok (some i)
      else skipEqual l first j fuel (i + 1)

/-- The last element is made greater than the first; `none` if all are equivalent. -/
def guardLast (l : List α) (first i j nSwaps : Nat) : Exec (Option (List α × Nat × Nat)) := do
  if ← lessAt pred proj l first j then .ok (some (l, i, nSwaps))
  else
    match ← skipEqual pred proj l first j (l.length + 1) i with
    | none => .ok none
    | some i =>
      let l ← iterSwap l i j
      .ok (some (l, i + 1, incSwaps nSwaps))

def gatherLoop (first : Nat) : Nat → List α → Nat → Nat → Nat → Exec (List α × Nat × Nat × Nat)
  | 0, _, _, _, _ => .error .fuel
  | fuel + 1, l, i, j, nSwaps => do
    let x ← deref l first
    let i ← scanForward (fun y => !pred (proj x) (proj y)) l (l.length + 1) i
    let j ← scanBackward (fun y => pred (proj x) (proj y)) l j
    if j ≤ i then .ok (l, i, j, nSwaps)
    else
      let l ← iterSwap l i j
      gatherLoop first fuel l (i + 1) j (incSwaps nSwaps)

/-- `none` if the element is found, otherwise where the two parts meet. -/
inductive Gathered (α : Type) where
  | done (l : List α)
  | apart (l : List α) (i j nSwaps : Nat)

def gather (nth : Nat) (l : List α) (first last i nSwaps : Nat) : Exec (Gathered α) := do
  let i := i + 1
  let j := last - 1
  match ← guardLast pred proj l first i j nSwaps with
  | none => .ok (.done l)
  | some (l, i, nSwaps) =>
    if i = j then .ok (.done l)
    else
      let (l, i, j, nSwaps) ← gatherLoop pred proj first (l.length + 1) l i j nSwaps
      if nth < i then .ok (.done l) else .ok (.apart l i j nSwaps)

/-! ## The guard for the downward scan -/

/-- `--j` until it meets `i` or an element smaller than `*m`. -/
def findGuard (l : List α) (i m : Nat) : Nat → Exec (Option Nat)
  | 0 => .error .fault
  | j + 1 =>
    if i = j then .ok none
    else do
      if ← lessAt pred proj l j m then .ok (some j) else findGuard l i m j

inductive Guarded (α : Type) where
  | done (l : List α)
  | found (l : List α) (first i j nSwaps : Nat)

/-- The loop that looks for the guard. Its second part is searched with the `first`, `i` and
`j` that `gather` ended with. -/
def guardLoop (nth last m : Nat) : Nat → List α → Nat → Nat → Nat → Nat → Exec (Guarded α)
  | 0, _, _, _, _, _ => .error .fuel
  | fuel + 1, l, first, i, j, nSwaps => do
    match ← findGuard pred proj l i m j with
    | some j =>
      let l ← iterSwap l i j
      .ok (.found l first i j (incSwaps nSwaps))
    | none =>
      match ← gather pred proj nth l first last i nSwaps with
      | .done l => .ok (.done l)
      | .apart l i j nSwaps => guardLoop nth last m fuel l i i j nSwaps

/-! ## The partition around the median -/

def partitionUnguarded :
    Nat → List α → Nat → Nat → Nat → Nat → Exec (List α × Nat × Nat × Nat)
  | 0, _, _, _, _, _ => .error .fuel
  | fuel + 1, l, m, i, j, nSwaps => do
    let v ← deref l m
    let i ← scanForward (fun y => pred (proj y) (proj v)) l (l.length + 1) i
    let j ← scanBackward (fun y => !pred (proj y) (proj v)) l j
    if j ≤ i then .ok (l, i, m, nSwaps)
    else
      let l ← iterSwap l i j
      partitionUnguarded fuel l (if m = i then j else m) (i + 1) j (incSwaps nSwaps)

/-- The partition, if the two iterators have not met. -/
def partitionMedian (l : List α) (m i j nSwaps : Nat) : Exec (List α × Nat × Nat × Nat) :=
  if i < j then partitionUnguarded pred proj (l.length + 1) l m i j nSwaps
  else .ok (l, i, m, nSwaps)

/-- The median goes to `i`. -/
def placeMedian (l : List α) (i m nSwaps : Nat) : Exec (List α × Nat) :=
  if i ≠ m then do
    if ← lessAt pred proj l m i then
      let l ← iterSwap l i m
      .ok (l, incSwaps nSwaps)
    else .ok (l, nSwaps)
  else .ok (l, nSwaps)

/-- `while(++j != last)`, comparing each element with the one before. -/
def sortedFrom (l : List α) (last : Nat) : Nat → Nat → Exec Bool
  | 0, _ => .error .fuel
  | fuel + 1, j =>
    if j + 1 = last then .ok true
    else do
      if ← lessAt pred proj l (j + 1) j then .ok false else sortedFrom l last fuel (j + 1)

/-- Whether the part that `nth` is in needs no sorting. -/
def alreadySorted (nth : Nat) (l : List α) (first i last nSwaps : Nat) : Exec Bool :=
  if nSwaps = 0 then
    if nth < i then sortedFrom pred proj l i (l.length + 1) first
    else sortedFrom pred proj l last (l.length + 1) i
  else .ok false

/-- The part of the range to go on with, once `*i` is in its place. -/
def narrow (nth : Nat) (l : List α) (first i last nSwaps : Nat) : Exec (NthTurn α) :=
  if nth = i then .ok (.done l)
  else do
    if ← alreadySorted pred proj nth l first i last nSwaps then .ok (.done l)
    else if nth < i then .ok (.again ⟨l, first, i⟩)
    else .ok (.again ⟨l, i + 1, last⟩)

/-- From `++i` on, behind a guard for the downward scan. -/
def finishTurn (nth : Nat) (l : List α) (first i j last m nSwaps : Nat) : Exec (NthTurn α) := do
  let (l, i, m, nSwaps) ← partitionMedian pred proj l m (i + 1) j nSwaps
  let (l, nSwaps) ← placeMedian pred proj l i m nSwaps
  narrow pred proj nth l first i last nSwaps

/-- Behind the search for a guard. -/
def resume (nth last m : Nat) : Guarded α → Exec (NthTurn α)
  | .done l => .ok (.done l)
  | .found l first i j nSwaps => finishTurn pred proj nth l first i j last m nSwaps

/-! ## The loop -/

def partitionTurn (nth : Nat) (s : NthState α) : Exec (NthTurn α) := do
  let len := s.last - s.first
  let m := s.first + len / 2
  let lm1 := s.last - 1
  let (l, nSwaps) ← sort3 pred proj s.list s.first m lm1
  if ← lessAt pred proj l s.first m then
    finishTurn pred proj nth l s.first s.first lm1 s.last m nSwaps
  else
    let g ← guardLoop pred proj nth s.last m (l.length + 1) l s.first s.first lm1 nSwaps
    resume pred proj nth s.last m g

/-- `limit`. -/
def nthLimit : Nat := 7

/-- The ranges of two and of three elements, the short ones and the others. -/
def nthTurn (nth : Nat) (s : NthState α) : Exec (NthTurn α) :=
  if nth = s.last then .ok (.done s.list)
  else
    match s.last - s.first with
    | 0 | 1 => .ok (.done s.list)
    | 2 => do
      if ← lessAt pred proj s.list (s.last - 1) s.first then
        let l ← iterSwap s.list s.first (s.last - 1)
        .ok (.done l)
      else .ok (.done s.list)
    | 3 => do
      let (l, _) ← sort3 pred proj s.list s.first (s.first + 1) (s.last - 1)
      .ok (.done l)
    | len =>
      if len ≤ nthLimit then do
        let l ← onRange s.list s.first s.last (selectionSort pred proj)
        .ok (.done l)
      else partitionTurn pred proj nth s

def nthLoop (nth : Nat) : Nat → NthState α → Exec (List α)
  | 0, _ => .error .fuel
  | fuel + 1, s => do
    match ← nthTurn pred proj nth s with
    | .done l => .ok l
    | .again s => nthLoop nth fuel s

/-- `nth_element`, which also returns the end. -/
def nthElement (fuel : Nat) (l : List α) (nth : Nat) : Exec (List α × Nat) := do
  let r ← nthLoop pred proj nth fuel ⟨l, 0, l.length⟩
  .ok (r, l.length)

end

variable {pred : κ → κ → Bool} {proj : α → κ}

/-! ## Gathering -/

/-- Not greater than `x`. -/
def notAbove (lt : α → α → Bool) (x y : α) : Bool := !lt x y

theorem skipEqual_spec (pred : κ → κ → Bool) (proj : α → κ) {l : List α} {first j : Nat} {x : α}
    (hx : l[first]? = some x) (hj : j < l.length) (fuel : Nat) {i : Nat} (hi : i ≤ j)
    (hfuel : j < fuel + i) :
    (skipEqual pred proj l first j fuel i = .ok none ∧
        ∀ k y, i ≤ k → k < j → l[k]? = some y → projected pred proj x y = false) ∨
      ∃ i' y, skipEqual pred proj l first j fuel i = .ok (some i') ∧ i ≤ i' ∧ i' < j ∧
        l[i']? = some y ∧ projected pred proj x y = true ∧
        ∀ k z, i ≤ k → k < i' → l[k]? = some z → projected pred proj x z = false := by
  induction fuel generalizing i with
  | zero => omega
  | succ fuel ih =>
    rw [skipEqual]
    by_cases hend : i = j
    · rw [if_pos hend]
      exact .inl ⟨rfl, fun k y hk hk' => by omega⟩
    · have hget := List.getElem?_eq_getElem (show i < l.length by omega)
      rw [if_neg hend, lessAt_eq hx hget, exec_bind_ok]
      cases hlt : projected pred proj x l[i] with
      | true =>
        rw [if_pos rfl]
        exact .inr ⟨i, _, rfl, Nat.le_refl i, by omega, hget, hlt, fun k y hk hk' => by omega⟩
      | false =>
        have hfirst : ∀ k y, k = i → l[k]? = some y → projected pred proj x y = false := by
          intro k y hk hy
          rw [hk, hget, Option.some.injEq] at hy
          rwa [← hy]
        rw [if_neg (by simp)]
        obtain ⟨hrun, hall⟩ | ⟨i', y, hrun, hi', hij, hy, hxy, hall⟩ :=
          ih (show i + 1 ≤ j by omega) (by omega)
        · refine .inl ⟨hrun, fun k y hk hk' hy => ?_⟩
          rcases Nat.eq_or_lt_of_le hk with heq | hlt'
          · exact hfirst k y heq.symm hy
          · exact hall k y hlt' hk' hy
        · refine .inr ⟨i', y, hrun, by omega, hij, hy, hxy, fun k z hk hk' hz => ?_⟩
          rcases Nat.eq_or_lt_of_le hk with heq | hlt'
          · exact hfirst k z heq.symm hz
          · exact hall k z hlt' hk' hz

theorem gatherLoop_spec {first last : Nat} {x : α} (fuel : Nat) {l : List α} {i j : Nat}
    (nSwaps : Nat) (hx : l[first]? = some x)
    (h : Exchanging (notAbove (projected pred proj) x) l first i j last) (hfuel : j < fuel + i) :
    ∃ r i' j' n, gatherLoop pred proj first fuel l i j nSwaps = .ok (r, i', j', n) ∧
      Within (first + 1) last l r ∧ j' + 1 = i' ∧
      Exchanged (notAbove (projected pred proj) x) r first i' last := by
  induction fuel generalizing l i j nSwaps with
  | zero =>
    have := h.le
    omega
  | succ fuel ih =>
    have hpred : (fun y => !notAbove (projected pred proj) x y) =
        fun y => pred (proj x) (proj y) := funext fun y => Bool.not_not _
    obtain ⟨i', j', hup, hdown, hi', hmet | hopen⟩ := exchange_round h
    · obtain ⟨hadjacent, hdone⟩ := hmet
      refine ⟨l, i', j', nSwaps, ?_, .refl _ _ _, hadjacent, hdone⟩
      rw [gatherLoop, deref_of_some hx, exec_bind_ok]
      refine Eq.trans (congrArg (· >>= _) hup) ?_
      rw [exec_bind_ok, ← hpred, hdown, exec_bind_ok, if_pos (by omega)]
    · obtain ⟨a, b, hij, hjj, ha, hb, _, _, hnext⟩ := hopen
      have hfirst := h.first_lt
      have hlast := h.lt_last
      obtain ⟨r, hswap, hwithin, hri, hrj, hrest⟩ := iterSwap_within ha hb (Nat.ne_of_lt hij)
        (show first + 1 ≤ i' ∧ i' < last by omega) (by omega)
      have hx' : r[first]? = some x := by rw [hrest first (by omega) (by omega), hx]
      obtain ⟨r', i'', j'', n, hrun, hwithin', hadjacent, hdone⟩ :=
        ih (incSwaps nSwaps) hx' (hnext r hri hrj hrest hwithin.length_eq) (by omega)
      refine ⟨r', i'', j'', n, ?_, hwithin.trans hwithin', hadjacent, hdone⟩
      rw [gatherLoop, deref_of_some hx, exec_bind_ok]
      refine Eq.trans (congrArg (· >>= _) hup) ?_
      rw [exec_bind_ok, ← hpred, hdown, exec_bind_ok, if_neg (by omega), hswap, exec_bind_ok, hrun]

/-- No element of `[first, last)` is smaller than `x`. -/
def LeastIn (lt : α → α → Bool) (l : List α) (first last : Nat) (x : α) : Prop :=
  ∀ y ∈ stretch l first last, lt y x = false

theorem LeastIn.within {lt : α → α → Bool} {l r : List α} {first last : Nat} {x : α}
    (h : LeastIn lt l first last x) (hle : first ≤ last) (hwithin : Within first last l r) :
    LeastIn lt r first last x := fun y hy => h y ((hwithin.stretch hle).mem_iff.mpr hy)

theorem LeastIn.get {lt : α → α → Bool} {l : List α} {first last k : Nat} {x y : α}
    (h : LeastIn lt l first last x) (hk : first ≤ k) (hk' : k < last) (hy : l[k]? = some y) :
    lt y x = false := h y (mem_stretch.mpr ⟨k, hk, hk', hy⟩)

/-- In the gathered part, and at the end of the range, an element is placed. -/
theorem placedIn_gathered (h : StrictWeakOrder pred) {r : List α} {first i last nth : Nat} {x : α}
    (hdone : Exchanged (notAbove (projected pred proj) x) r first i last)
    (hleast : LeastIn (projected pred proj) r first last x) (hfirst : first ≤ nth)
    (hlast : nth < last) (hlength : last ≤ r.length) (hnth : nth < i ∨ i + 1 = last) :
    ∃ v, PlacedIn (projected pred proj) r first last nth v := by
  have hproj := h.projected proj
  have hv := List.getElem?_eq_getElem (show nth < r.length by omega)
  have hxv := hleast.get hfirst hlast hv
  refine ⟨_, hv, fun k y hk hk' hy => ?_, fun k y hk hk' hy => ?_⟩
  · have hyx : projected pred proj x y = false := by
      simpa [notAbove] using hdone.left k y hk (by omega) hy
    exact hproj.not_lt_trans hyx hxv
  · have hvx : projected pred proj x r[nth] = false := by
      simpa [notAbove] using hdone.left nth _ hfirst (by omega) hv
    exact hproj.not_lt_trans hvx (hleast.get (by omega) hk' hy)

theorem guardLast_spec (h : StrictWeakOrder pred) (nSwaps : Nat) {l : List α} {first last : Nat}
    {x : α} (hx : l[first]? = some x) (hlong : first + 1 < last) (hlength : last ≤ l.length)
    (hleast : LeastIn (projected pred proj) l first last x) :
    (guardLast pred proj l first (first + 1) (last - 1) nSwaps = .ok none ∧
        SortedIn (projected pred proj) l first last) ∨
      ∃ r i n, guardLast pred proj l first (first + 1) (last - 1) nSwaps = .ok (some (r, i, n)) ∧
        Within (first + 1) last l r ∧
        Exchanging (notAbove (projected pred proj) x) r first i (last - 1) last := by
  have hproj := h.projected proj
  have hz := List.getElem?_eq_getElem (show last - 1 < l.length by omega)
  have hself : ∀ k y, first ≤ k → k < first + 1 → l[k]? = some y →
      projected pred proj x y = false := by
    intro k y hk hk' hy
    obtain rfl : k = first := by omega
    rw [hx, Option.some.injEq] at hy
    rw [← hy]
    exact hproj.not_self x
  rw [guardLast, lessAt_eq hx hz, exec_bind_ok]
  cases hlt : projected pred proj x l[last - 1] with
  | true =>
    rw [if_pos rfl]
    refine .inr ⟨l, first + 1, nSwaps, rfl, .refl _ _ _, by omega, by omega, by omega, hlength,
      fun k y hk hk' hy => ?_, fun k y hk hk' hy => ?_⟩
    · rw [notAbove, hself k y hk hk' hy]
      rfl
    · obtain rfl : k = last - 1 := by omega
      rw [hz, Option.some.injEq] at hy
      rw [← hy, notAbove, hlt]
      rfl
  | false =>
    rw [if_neg (by simp)]
    obtain ⟨hrun, hall⟩ | ⟨i, y, hrun, hi, hij, hy, hxy, hall⟩ :=
      skipEqual_spec pred proj hx (show last - 1 < l.length by omega)
        (l.length + 1) (show first + 1 ≤ last - 1 by omega) (by omega)
    · rw [hrun, exec_bind_ok]
      refine .inl ⟨rfl, fun a b y z ha hab hb hya hzb => ?_⟩
      have hequal : projected pred proj x y = false := by
        rcases Nat.lt_or_ge a (first + 1) with hfirst | hrest
        · exact hself a y ha hfirst hya
        · exact hall a y hrest (by omega) hya
      exact hproj.not_lt_trans hequal (hleast.get (by omega) hb hzb)
    · obtain ⟨r, hswap, hwithin, hri, hrj, hrest⟩ := iterSwap_within hy hz (Nat.ne_of_lt hij)
        (show first + 1 ≤ i ∧ i < last by omega) (by omega)
      rw [hrun, exec_bind_ok]
      dsimp only
      rw [hswap, exec_bind_ok]
      refine .inr ⟨r, i + 1, incSwaps nSwaps, rfl, hwithin, by omega, by omega, by omega,
        hwithin.length_eq ▸ hlength, fun k z hk hk' hzk => ?_, fun k z hk hk' hzk => ?_⟩
      · by_cases hki : k = i
        · rw [hki, hri, Option.some.injEq] at hzk
          rw [← hzk, notAbove, hlt]
          rfl
        · rw [hrest k hki (by omega)] at hzk
          rcases Nat.lt_or_ge k (first + 1) with hfirst | hlater
          · rw [notAbove, hself k z hk hfirst hzk]
            rfl
          · rw [notAbove, hall k z hlater (by omega) hzk]
            rfl
      · obtain rfl : k = last - 1 := by omega
        rw [hrj, Option.some.injEq] at hzk
        rw [← hzk, notAbove, hxy]
        rfl

/-- `gather` ends with the element placed, or with the smallest elements in front of the
part that it is in. -/
theorem gather_spec (h : StrictWeakOrder pred) (nSwaps : Nat) {l : List α} {first last nth : Nat}
    {x : α} (hx : l[first]? = some x) (hlong : first + 1 < last) (hlength : last ≤ l.length)
    (hleast : LeastIn (projected pred proj) l first last x) (hfirst : first ≤ nth)
    (hlast : nth < last) :
    (∃ r v, gather pred proj nth l first last first nSwaps = .ok (.done r) ∧
        Within first last l r ∧ PlacedIn (projected pred proj) r first last nth v) ∨
      ∃ r i j n, gather pred proj nth l first last first nSwaps = .ok (.apart r i j n) ∧
        Within (first + 1) last l r ∧ j + 1 = i ∧ i ≤ nth ∧
        Exchanged (notAbove (projected pred proj) x) r first i last := by
  rw [gather]
  dsimp only
  obtain ⟨hrun, hsorted⟩ | ⟨l₁, i, n, hrun, hwithin, hready⟩ :=
    guardLast_spec h nSwaps hx hlong hlength hleast
  · have hv := List.getElem?_eq_getElem (show nth < l.length by omega)
    rw [hrun, exec_bind_ok]
    exact .inl ⟨l, _, rfl, .refl _ _ _, hsorted.placedIn hfirst hlast hv⟩
  have hinside : Within first last l l₁ := hwithin.mono (Nat.le_succ first) (Nat.le_refl last)
  have hx₁ : l₁[first]? = some x := by rw [hwithin.same first (.inl (Nat.lt_succ_self _)), hx]
  rw [hrun, exec_bind_ok]
  dsimp only
  by_cases hmet : i = last - 1
  · have hleast₁ := hleast.within (by omega) hinside
    subst hmet
    obtain ⟨v, hplaced⟩ := placedIn_gathered h hready.exchanged hleast₁ hfirst hlast
      hready.last_le (by omega)
    rw [if_pos rfl]
    exact .inl ⟨l₁, v, rfl, hinside, hplaced⟩
  rw [if_neg hmet]
  obtain ⟨r, i', j', n', hloop, hwithin', hadjacent, hdone⟩ :=
    gatherLoop_spec (l₁.length + 1) n hx₁ hready (by
      have := hready.last_le
      omega)
  have hall : Within first last l r :=
    hinside.trans (hwithin'.mono (Nat.le_succ first) (Nat.le_refl last))
  rw [hloop, exec_bind_ok]
  dsimp only
  by_cases hfound : nth < i'
  · obtain ⟨v, hplaced⟩ := placedIn_gathered h hdone
      (hleast.within (by omega) hall) hfirst hlast (hall.length_eq ▸ hlength) (.inl hfound)
    rw [if_pos hfound]
    exact .inl ⟨r, v, rfl, hall, hplaced⟩
  · rw [if_neg hfound]
    exact .inr ⟨r, i', j', n', rfl, hwithin.trans hwithin', hadjacent, by omega, hdone⟩

/-! ## Partitioning around the median -/

/-- Down from `j` the last guard is found, or `i` is met, or, from in front of `i`, the begin
of the list. -/
theorem findGuard_spec (pred : κ → κ → Bool) (proj : α → κ) {l : List α} {m : Nat} {v : α}
    (hv : l[m]? = some v) (i : Nat) {j : Nat} (hj : j ≤ l.length) :
    (findGuard pred proj l i m j = (if i < j then .ok none else .error .fault) ∧
        ∀ k y, (i < j → i < k) → k < j → l[k]? = some y → projected pred proj y v = false) ∨
      ∃ g y, findGuard pred proj l i m j = .ok (some g) ∧ (i < j → i < g) ∧ g < j ∧
        l[g]? = some y ∧ projected pred proj y v = true ∧
        ∀ k z, g < k → k < j → l[k]? = some z → projected pred proj z v = false := by
  induction j with
  | zero => exact .inl ⟨rfl, fun k y _ hk => absurd hk (Nat.not_lt_zero k)⟩
  | succ j ih =>
    rw [findGuard]
    by_cases hmet : i = j
    · rw [if_pos hmet, if_pos (by omega)]
      exact .inl ⟨rfl, fun k y hk hk' => by omega⟩
    · have hget := List.getElem?_eq_getElem (show j < l.length by omega)
      have hsame : i < j + 1 ↔ i < j := by omega
      rw [if_neg hmet, lessAt_eq hget hv, exec_bind_ok]
      simp only [hsame]
      cases hlt : projected pred proj l[j] v with
      | true =>
        rw [if_pos rfl]
        exact .inr ⟨j, _, rfl, id, Nat.lt_succ_self j, hget, hlt, fun k z hk hk' => by omega⟩
      | false =>
        have hlast : ∀ k y, k = j → l[k]? = some y → projected pred proj y v = false := by
          intro k y hk hy
          rw [hk, hget, Option.some.injEq] at hy
          rwa [← hy]
        rw [if_neg (by simp)]
        obtain ⟨hrun, hall⟩ | ⟨g, y, hrun, hig, hgj, hy, hyv, hall⟩ := ih (by omega)
        · refine .inl ⟨hrun, fun k y hk hk' hy => ?_⟩
          rcases Nat.lt_or_ge k j with hbefore | hend
          · exact hall k y hk hbefore hy
          · exact hlast k y (by omega) hy
        · refine .inr ⟨g, y, hrun, hig, by omega, hy, hyv, fun k z hk hk' hz => ?_⟩
          rcases Nat.lt_or_ge k j with hbefore | hend
          · exact hall k z hk hbefore hz
          · exact hlast k z (by omega) hz

/-- Smaller than `v`. -/
def below (lt : α → α → Bool) (v y : α) : Bool := lt y v

theorem partitionUnguarded_spec (h : StrictWeakOrder pred) {first last : Nat} {v : α} (fuel : Nat)
    {l : List α} {m i j : Nat} (nSwaps : Nat) (hv : l[m]? = some v) (hm : first ≤ m ∧ m < last)
    (hready : Exchanging (below (projected pred proj) v) l first i j last) (hfuel : j < fuel + i) :
    ∃ r i' m' n, partitionUnguarded pred proj fuel l m i j nSwaps = .ok (r, i', m', n) ∧
      Within first last l r ∧ Exchanged (below (projected pred proj) v) r first i' last ∧
      r[m']? = some v ∧ first ≤ m' ∧ m' < last := by
  induction fuel generalizing l m i j nSwaps with
  | zero =>
    have := hready.le
    omega
  | succ fuel ih =>
    have hself : below (projected pred proj) v v = false := (h.projected proj).not_self v
    obtain ⟨i', j', hup, hdown, hi', hmet | hopen⟩ := exchange_round hready
    · refine ⟨l, i', m, nSwaps, ?_, .refl _ _ _, hmet.2, hv, hm.1, hm.2⟩
      rw [partitionUnguarded, deref_of_some hv, exec_bind_ok]
      refine Eq.trans (congrArg (· >>= _) hup) ?_
      rw [exec_bind_ok]
      refine Eq.trans (congrArg (· >>= _) hdown) ?_
      rw [exec_bind_ok, if_pos (by omega)]
    · obtain ⟨a, b, hij, hjj, ha, hb, hpa, hpb, hnext⟩ := hopen
      have hfirst := hready.first_lt
      have hlast := hready.lt_last
      obtain ⟨r, hswap, hwithin, hri, hrj, hrest⟩ := iterSwap_within ha hb (Nat.ne_of_lt hij)
        (show first ≤ i' ∧ i' < last by omega) (by omega)
      -- the median does not stand at `j'`, and is followed if it stands at `i'`
      have hm' : r[if m = i' then j' else m]? = some v ∧
          first ≤ (if m = i' then j' else m) ∧ (if m = i' then j' else m) < last := by
        split
        · next heq =>
          rw [heq, ha, Option.some.injEq] at hv
          exact ⟨by rw [hrj, hv], by omega, by omega⟩
        · next hne =>
          have hne' : m ≠ j' := by
            rintro rfl
            rw [hv, Option.some.injEq] at hb
            rw [← hb, hself] at hpb
            cases hpb
          exact ⟨by rw [hrest m hne hne', hv], hm⟩
      obtain ⟨r', i'', m', n, hrun, hwithin', hdone⟩ :=
        ih (incSwaps nSwaps) hm'.1 hm'.2 (hnext r hri hrj hrest hwithin.length_eq)
          (by omega)
      refine ⟨r', i'', m', n, ?_, hwithin.trans hwithin', hdone⟩
      rw [partitionUnguarded, deref_of_some hv, exec_bind_ok]
      refine Eq.trans (congrArg (· >>= _) hup) ?_
      rw [exec_bind_ok]
      refine Eq.trans (congrArg (· >>= _) hdown) ?_
      rw [exec_bind_ok, if_neg (by omega), hswap, exec_bind_ok, hrun]

theorem partitionMedian_spec (h : StrictWeakOrder pred) (nSwaps : Nat) {first last : Nat} {v : α}
    {l : List α} {m i j : Nat} (hv : l[m]? = some v) (hm : first ≤ m ∧ m < last)
    (hready : Exchanging (below (projected pred proj) v) l first i j last) :
    ∃ r i' m' n, partitionMedian pred proj l m i j nSwaps = .ok (r, i', m', n) ∧
      Within first last l r ∧ Exchanged (below (projected pred proj) v) r first i' last ∧
      r[m']? = some v ∧ first ≤ m' ∧ m' < last := by
  rw [partitionMedian]
  by_cases hij : i < j
  · have hlength := hready.last_le
    have hlast := hready.lt_last
    rw [if_pos hij]
    exact partitionUnguarded_spec h (l.length + 1) nSwaps hv hm hready (by omega)
  · obtain rfl : i = j := Nat.le_antisymm hready.le (Nat.le_of_not_lt hij)
    rw [if_neg hij]
    exact ⟨l, i, m, nSwaps, rfl, .refl _ _ _, hready.exchanged, hv, hm.1, hm.2⟩

theorem placeMedian_spec (h : StrictWeakOrder pred) (nSwaps : Nat) {first last i m : Nat} {v : α}
    {l : List α} (hv : l[m]? = some v) (hm : first ≤ m ∧ m < last) (hlength : last ≤ l.length)
    (hdone : Exchanged (below (projected pred proj) v) l first i last) :
    ∃ r n w, placeMedian pred proj l i m nSwaps = .ok (r, n) ∧ Within first last l r ∧
      PlacedIn (projected pred proj) r first last i w := by
  have hproj := h.projected proj
  have hfirst := hdone.first_lt
  have hlast := hdone.lt_last
  have hi := List.getElem?_eq_getElem (show i < l.length by omega)
  have hvi : projected pred proj l[i] v = false := hdone.right i _ (Nat.le_refl i) hlast hi
  -- an element equivalent to the median is placed at the cut
  have hplaced : projected pred proj v l[i] = false →
      PlacedIn (projected pred proj) l first last i l[i] := by
    intro hle
    refine ⟨hi, fun k y hk hk' hy => ?_, fun k y hk hk' hy => ?_⟩
    · have hyv : projected pred proj y v = true := hdone.left k y hk hk' hy
      exact hproj.not_lt_trans (hproj.asymm hyv) hvi
    · have hyv : projected pred proj y v = false := hdone.right k y (by omega) hk' hy
      exact hproj.not_lt_trans hle hyv
  rw [placeMedian]
  by_cases hne : i ≠ m
  · rw [if_pos hne, lessAt_eq hv hi, exec_bind_ok]
    cases hlt : projected pred proj v l[i] with
    | false =>
      rw [if_neg (by simp)]
      exact ⟨l, nSwaps, _, rfl, .refl _ _ _, hplaced hlt⟩
    | true =>
      obtain ⟨r, hswap, hwithin, hri, hrm, hrest⟩ := iterSwap_within hi hv hne
        (show first ≤ i ∧ i < last by omega) hm
      have himn : i < m := by
        rcases Nat.lt_or_ge i m with hlt' | hge
        · exact hlt'
        · have hbelow : projected pred proj v v = true := hdone.left m v hm.1 (by omega) hv
          rw [hproj.not_self] at hbelow
          cases hbelow
      rw [if_pos rfl, hswap, exec_bind_ok]
      refine ⟨r, incSwaps nSwaps, v, rfl, hwithin, hri, fun k y hk hk' hy => ?_,
        fun k y hk hk' hy => ?_⟩
      · rw [hrest k (by omega) (by omega)] at hy
        exact hproj.asymm (hdone.left k y hk hk' hy)
      · by_cases hkm : k = m
        · rw [hkm, hrm, Option.some.injEq] at hy
          rw [← hy]
          exact hproj.asymm hlt
        · rw [hrest k (by omega) hkm] at hy
          exact hdone.right k y (by omega) hk' hy
  · obtain rfl : i = m := not_not.mp hne
    rw [hi, Option.some.injEq] at hv
    rw [if_neg hne]
    exact ⟨l, nSwaps, _, rfl, .refl _ _ _, hplaced (hv ▸ hproj.not_self _)⟩

/-! ## Narrowing -/

/-- The turn leaves the element placed in the range, or a separated range with it. -/
def Progress (lt : α → α → Bool) (nth : Nat) (s : NthState α) : NthTurn α → Prop
  | .done r => Within s.first s.last s.list r ∧ ∃ v, PlacedIn lt r s.first s.last nth v
  | .again s' => Within s.first s.last s.list s'.list ∧
      Separated lt s'.list s.first s'.first s'.last s.last ∧ s.first ≤ s'.first ∧
      s'.first ≤ nth ∧ nth < s'.last ∧ s'.last ≤ s.last ∧
      s'.last - s'.first < s.last - s.first

theorem Progress.of_within {lt : α → α → Bool} {nth first last : Nat} {l r : List α}
    {t : NthTurn α} (hwithin : Within first last l r) (h : Progress lt nth ⟨r, first, last⟩ t) :
    Progress lt nth ⟨l, first, last⟩ t := by
  cases t with
  | done r' => exact ⟨hwithin.trans h.1, h.2⟩
  | again s => exact ⟨hwithin.trans h.1, h.2⟩

theorem sortedFrom_spec (h : StrictWeakOrder pred) (proj : α → κ) {l : List α} {last : Nat}
    (hlength : last ≤ l.length) (fuel : Nat) {j : Nat} (hj : j < last) (hfuel : last < fuel + j) :
    ∃ b, sortedFrom pred proj l last fuel j = .ok b ∧
      (b = true → SortedIn (projected pred proj) l j last) := by
  have hproj := h.projected proj
  induction fuel generalizing j with
  | zero => omega
  | succ fuel ih =>
    rw [sortedFrom]
    by_cases hend : j + 1 = last
    · rw [if_pos hend]
      exact ⟨true, rfl, fun _ a b x y ha hab hb => by omega⟩
    · have hy := List.getElem?_eq_getElem (show j + 1 < l.length by omega)
      have hx := List.getElem?_eq_getElem (show j < l.length by omega)
      rw [if_neg hend, lessAt_eq hy hx, exec_bind_ok]
      cases hlt : projected pred proj l[j + 1] l[j] with
      | true =>
        rw [if_pos rfl]
        exact ⟨false, rfl, nofun⟩
      | false =>
        obtain ⟨b, hrun, hb⟩ := ih (j := j + 1) (by omega) (by omega)
        rw [if_neg (by simp)]
        refine ⟨b, hrun, fun htrue p q x y hp hpq hq hxp hyq => ?_⟩
        have hrest := hb htrue
        rcases Nat.eq_or_lt_of_le hp with heq | hlater
        · subst heq
          rw [hx, Option.some.injEq] at hxp
          rw [← hxp]
          rcases Nat.eq_or_lt_of_le (show j + 1 ≤ q by omega) with hnext | hbehind
          · rw [← hnext, hy, Option.some.injEq] at hyq
            rw [← hyq]
            exact hlt
          · exact hproj.not_lt_trans hlt (hrest (j + 1) q _ y (Nat.le_refl _) hbehind hq hy hyq)
        · exact hrest p q x y hlater hpq hq hxp hyq

theorem alreadySorted_spec (h : StrictWeakOrder pred) (proj : α → κ) (nSwaps : Nat) {l : List α}
    {first i last nth : Nat} (hlength : last ≤ l.length) (hfirst : first ≤ nth) (hi : i < last) :
    ∃ b, alreadySorted pred proj nth l first i last nSwaps = .ok b ∧
      (b = true → nth < i → SortedIn (projected pred proj) l first i) ∧
      (b = true → i < nth → SortedIn (projected pred proj) l i last) := by
  rw [alreadySorted]
  by_cases hnone : nSwaps = 0
  · rw [if_pos hnone]
    by_cases hlt : nth < i
    · obtain ⟨b, hrun, hb⟩ := sortedFrom_spec h proj (show i ≤ l.length by omega)
        (l.length + 1) (show first < i by omega) (by omega)
      rw [if_pos hlt]
      exact ⟨b, hrun, fun htrue _ => hb htrue, fun _ hgt => by omega⟩
    · obtain ⟨b, hrun, hb⟩ := sortedFrom_spec h proj hlength (l.length + 1) hi (by omega)
      rw [if_neg hlt]
      exact ⟨b, hrun, fun _ hlt' => absurd hlt' hlt, fun htrue _ => hb htrue⟩
  · rw [if_neg hnone]
    exact ⟨false, rfl, nofun, nofun⟩

theorem narrow_spec (h : StrictWeakOrder pred) (nSwaps : Nat) {r : List α} {first i last nth : Nat}
    {w : α} (hplaced : PlacedIn (projected pred proj) r first last i w) (hi : first ≤ i ∧ i < last)
    (hlength : last ≤ r.length) (hnth : first ≤ nth ∧ nth < last) :
    ∃ t, narrow pred proj nth r first i last nSwaps = .ok t ∧
      Progress (projected pred proj) nth ⟨r, first, last⟩ t := by
  have hproj := h.projected proj
  rw [narrow]
  by_cases hfound : nth = i
  · subst hfound
    rw [if_pos rfl]
    exact ⟨_, rfl, .refl _ _ _, w, hplaced⟩
  obtain ⟨b, hrun, hleft, hright⟩ := alreadySorted_spec h proj nSwaps hlength
    hnth.1 hi.2
  have hv := List.getElem?_eq_getElem (show nth < r.length by omega)
  rw [if_neg hfound, hrun, exec_bind_ok]
  rcases Nat.lt_or_ge nth i with hlt | hge
  · cases b with
    | true =>
      have hpart := (hleft rfl hlt).placedIn hnth.1 hlt hv
      rw [if_pos rfl]
      exact ⟨_, rfl, .refl _ _ _, _, hplaced.of_before hproj hpart hnth.1 hlt⟩
    | false =>
      rw [if_neg (by simp), if_pos hlt]
      refine ⟨_, rfl, .refl _ _ _, ⟨fun k j x y hk hk' => absurd hk (Nat.not_le.mpr hk'),
        fun k j x y hk hk' hj hj' hx hy => ?_⟩, Nat.le_refl _, hnth.1, hlt, Nat.le_of_lt hi.2, ?_⟩
      · exact hplaced.cross hproj hk (Nat.le_of_lt hk') hj hj' hx hy
      · dsimp only
        omega
  · have hgt : i < nth := by omega
    cases b with
    | true =>
      have hpart := (hright rfl hgt).placedIn (Nat.le_of_lt hgt) hnth.2 hv
      rw [if_pos rfl]
      exact ⟨_, rfl, .refl _ _ _, _, hplaced.of_behind hproj hpart hgt hnth.2⟩
    | false =>
      rw [if_neg (by simp), if_neg (by omega)]
      refine ⟨_, rfl, .refl _ _ _, ⟨fun k j x y hk hk' hj hj' hx hy => ?_,
        fun k j x y _ _ hj hj' => absurd hj (Nat.not_le.mpr hj')⟩, by dsimp only; omega, hgt,
        hnth.2, Nat.le_refl _, ?_⟩
      · dsimp only at hk' hj
        exact hplaced.cross hproj hk (Nat.le_of_lt_succ hk') (by omega) hj' hx hy
      · dsimp only
        omega

/-- A turn with a guard. -/
theorem finishTurn_spec (h : StrictWeakOrder pred) (nSwaps : Nat) {l : List α}
    {first j last m nth : Nat} {v : α} (hv : l[m]? = some v) (hm : first ≤ m ∧ m < last)
    (hready : Exchanging (below (projected pred proj) v) l first (first + 1) j last)
    (hnth : first ≤ nth ∧ nth < last) :
    ∃ t, finishTurn pred proj nth l first first j last m nSwaps = .ok t ∧
      Progress (projected pred proj) nth ⟨l, first, last⟩ t := by
  obtain ⟨l₁, i, m', n, hpartition, hwithin, hdone, hv', hm'⟩ :=
    partitionMedian_spec h nSwaps hv hm hready
  have hlength : last ≤ l₁.length := hwithin.length_eq ▸ hready.last_le
  obtain ⟨l₂, n', w, hplace, hwithin', hplaced⟩ :=
    placeMedian_spec h n hv' hm' hlength hdone
  obtain ⟨t, hnarrow, hprogress⟩ := narrow_spec h n' hplaced
    ⟨Nat.le_of_lt hdone.first_lt, hdone.lt_last⟩ (hwithin'.length_eq ▸ hlength) hnth
  refine ⟨t, ?_, hprogress.of_within (hwithin.trans hwithin')⟩
  rw [finishTurn, hpartition, exec_bind_ok]
  dsimp only
  rw [hplace, exec_bind_ok]
  exact hnarrow

/-! ## A turn -/

/-- The turn gets to the `continue`: `[first, i)` holds the smallest elements, and the second
part is the one to search. -/
def Continues (pred : κ → κ → Bool) (proj : α → κ) (nth : Nat) (s : NthState α) (l : List α)
    (i m : Nat) : Prop :=
  nth ≠ s.last ∧ nthLimit < s.last - s.first ∧ m = s.first + (s.last - s.first) / 2 ∧
    ∃ l₁ n₁ j n, sort3 pred proj s.list s.first m (s.last - 1) = .ok (l₁, n₁) ∧
      lessAt pred proj l₁ s.first m = .ok false ∧
      findGuard pred proj l₁ s.first m (s.last - 1) = .ok none ∧
      gather pred proj nth l₁ s.first s.last s.first n₁ = .ok (.apart l i j n)

/-- `nth` is in the range. -/
structure Holding (nth : Nat) (s : NthState α) : Prop where
  first_le : s.first ≤ nth
  lt_last : nth < s.last
  last_le : s.last ≤ s.list.length

/-- What is known at the `continue`: `x` is least, `[first, i)` equivalent to it and the
second part greater. -/
structure AtContinue (lt : α → α → Bool) (nth : Nat) (s : NthState α) (l : List α) (i m : Nat)
    (x : α) : Prop where
  within : Within s.first s.last s.list l
  two : s.first + 2 ≤ i
  le_nth : i ≤ nth
  median : s.first < m ∧ m < s.last
  least : LeastIn lt l s.first s.last x
  apart : Exchanged (notAbove lt x) l s.first i s.last

theorem progress_sorted {lt : α → α → Bool} {nth : Nat} {s : NthState α} {r : List α}
    (hs : Holding nth s) (hwithin : Within s.first s.last s.list r)
    (hsorted : SortedIn lt r s.first s.last) : Progress lt nth s (.done r) := by
  have hlast := hs.lt_last
  have hlength := hs.last_le
  have hlen := hwithin.length_eq
  have hv := List.getElem?_eq_getElem (show nth < r.length by omega)
  exact ⟨hwithin, _, hsorted.placedIn hs.first_le hs.lt_last hv⟩

theorem nthTurn_two (h : StrictWeakOrder pred) {nth : Nat} {s : NthState α} (hs : Holding nth s)
    (hlen : s.last - s.first = 2) :
    ∃ t, nthTurn pred proj nth s = .ok t ∧ Progress (projected pred proj) nth s t := by
  obtain ⟨hfirst, hlast, hlength⟩ := hs
  have hx := List.getElem?_eq_getElem (show s.first < s.list.length by omega)
  have hy := List.getElem?_eq_getElem (show s.last - 1 < s.list.length by omega)
  have hpair : ∀ r x y, r[s.first]? = some x → r[s.last - 1]? = some y →
      projected pred proj y x = false → SortedIn (projected pred proj) r s.first s.last := by
    intro r x y hx hy hyx a b x' y' ha hab hb hx' hy'
    obtain rfl : a = s.first := by omega
    obtain rfl : b = s.last - 1 := by omega
    rw [hx, Option.some.injEq] at hx'
    rw [hy, Option.some.injEq] at hy'
    rwa [← hx', ← hy']
  rw [nthTurn, if_neg (by omega), hlen]
  dsimp only
  rw [lessAt_eq hy hx, exec_bind_ok]
  cases hlt : projected pred proj s.list[s.last - 1] s.list[s.first] with
  | true =>
    obtain ⟨r, hswap, hwithin, hry, hrx, _⟩ := iterSwap_within hx hy (by omega)
      (show s.first ≤ s.first ∧ s.first < s.last by omega) (by omega)
    rw [if_pos rfl, hswap, exec_bind_ok]
    exact ⟨_, rfl, progress_sorted ⟨hfirst, hlast, hlength⟩ hwithin
      (hpair r _ _ hry hrx ((h.projected proj).asymm hlt))⟩
  | false =>
    rw [if_neg (by simp)]
    exact ⟨_, rfl, progress_sorted ⟨hfirst, hlast, hlength⟩ (.refl _ _ _) (hpair _ _ _ hx hy hlt)⟩

theorem nthTurn_three (h : StrictWeakOrder pred) {nth : Nat} {s : NthState α} (hs : Holding nth s)
    (hlen : s.last - s.first = 3) :
    ∃ t, nthTurn pred proj nth s = .ok t ∧ Progress (projected pred proj) nth s t := by
  have hproj := h.projected proj
  obtain ⟨hfirst, hlast, hlength⟩ := hs
  obtain ⟨r, n, a, b, c, hsort, hwithin, ha, hb, hc, hba, hcb⟩ :=
    sort3_spec h proj (show s.first ≤ s.first by omega)
      (show s.first < s.first + 1 by omega) (show s.first + 1 < s.last - 1 by omega)
      (show s.last - 1 < s.last by omega) (show s.last - 1 < s.list.length by omega)
  have hsorted : SortedIn (projected pred proj) r s.first s.last := by
    intro p q x y hp hpq hq hx hy
    obtain rfl | rfl : p = s.first ∨ p = s.first + 1 := by omega
    · rw [ha, Option.some.injEq] at hx
      obtain rfl | rfl : q = s.first + 1 ∨ q = s.last - 1 := by omega
      · rw [hb, Option.some.injEq] at hy
        rwa [← hx, ← hy]
      · rw [hc, Option.some.injEq] at hy
        rw [← hx, ← hy]
        exact hproj.not_lt_trans hba hcb
    · obtain rfl : q = s.last - 1 := by omega
      rw [hb, Option.some.injEq] at hx
      rw [hc, Option.some.injEq] at hy
      rwa [← hx, ← hy]
  rw [nthTurn, if_neg (by omega), hlen]
  dsimp only
  rw [hsort, exec_bind_ok]
  exact ⟨_, rfl, progress_sorted ⟨hfirst, hlast, hlength⟩ hwithin hsorted⟩

/-- The stretch `[first, last)` goes to `selection_sort`. -/
theorem onRange_selectionSort (h : StrictWeakOrder pred) (proj : α → κ) {l : List α}
    {first last : Nat} (hlt : first < last) (hlength : last ≤ l.length) :
    ∃ r, onRange l first last (selectionSort pred proj) = .ok r ∧ Within first last l r ∧
      SortedIn (projected pred proj) r first last := by
  have hseglen := stretch_length first hlength
  obtain ⟨m, hsort, hperm, hm⟩ := selectionSort_spec h proj
    (show 0 < (stretch l first last).length by omega)
  obtain ⟨hwithin, hstretch⟩ := Within.of_stretch (Nat.le_of_lt hlt) hlength hperm
  have hrange : onRange (l.take first ++ stretch l first last ++ l.drop last) first last
      (selectionSort pred proj) = .ok (l.take first ++ m ++ l.drop last) := by
    have hfront : (l.take first).length = first := List.length_take_of_le (by omega)
    refine onRange_append hfront.symm ?_ hsort
    rw [hfront, hseglen]
    omega
  rw [← cut_stretch (Nat.le_of_lt hlt)] at hrange
  refine ⟨_, hrange, hwithin, fun a b x y ha hab hb hx hy => ?_⟩
  rw [← hstretch] at hm
  have hpair := List.pairwise_iff_getElem.mp hm (a - first) (b - first)
  generalize l.take first ++ m ++ l.drop last = r at hx hy hpair hwithin
  have hlen := stretch_length (l := r) first (hwithin.length_eq ▸ hlength)
  have hget : ∀ k z, first ≤ k → k < last → r[k]? = some z →
      (stretch r first last)[k - first]? = some z := by
    intro k z hk hk' hz
    rw [stretch, List.getElem?_drop, List.getElem?_take, Nat.add_sub_cancel' hk, if_pos hk', hz]
  obtain ⟨hax, hxa⟩ := List.getElem?_eq_some_iff.mp (hget a x ha (by omega) hx)
  obtain ⟨hby, hyb⟩ := List.getElem?_eq_some_iff.mp (hget b y (by omega) hb hy)
  rw [← hxa, ← hyb]
  exact hpair hax hby (by omega)

/-- More than three elements are sorted if they are few. -/
theorem nthTurn_more {nth : Nat} {s : NthState α} (hne : nth ≠ s.last)
    (hmore : 3 < s.last - s.first) :
    nthTurn pred proj nth s =
      if s.last - s.first ≤ nthLimit then
        onRange s.list s.first s.last (selectionSort pred proj) >>= fun l => .ok (.done l)
      else partitionTurn pred proj nth s := by
  rw [nthTurn, if_neg hne]
  split
  · omega
  · omega
  · omega
  · omega
  · rfl

/-- Up to the limit a turn finds the element. -/
theorem nthTurn_short (h : StrictWeakOrder pred) (proj : α → κ) {nth : Nat} {s : NthState α}
    (hs : Holding nth s) (hlen : s.last - s.first ≤ nthLimit) :
    ∃ t, nthTurn pred proj nth s = .ok t ∧ Progress (projected pred proj) nth s t := by
  by_cases htwo : s.last - s.first = 2
  · exact nthTurn_two h hs htwo
  by_cases hthree : s.last - s.first = 3
  · exact nthTurn_three h hs hthree
  have hfirst := hs.first_le
  have hlast := hs.lt_last
  by_cases hone : s.last - s.first = 1
  · rw [nthTurn, if_neg (by omega), hone]
    exact ⟨_, rfl, progress_sorted hs (.refl _ _ _) fun a b x y ha hab hb => by omega⟩
  · obtain ⟨r, hsort, hwithin, hsorted⟩ := onRange_selectionSort h proj
      (show s.first < s.last by omega) hs.last_le
    refine ⟨.done r, ?_, progress_sorted hs hwithin hsorted⟩
    rw [nthTurn_more (by omega) (by omega), if_pos hlen, hsort, exec_bind_ok]

/-- The turn goes on, and does not get to the `continue`. -/
def TurnDone (pred : κ → κ → Bool) (proj : α → κ) (nth : Nat) (s : NthState α) : Prop :=
  ∃ t, nthTurn pred proj nth s = .ok t ∧ Progress (projected pred proj) nth s t ∧
    ∀ l i m, ¬ Continues pred proj nth s l i m

/-- The turn gets to the `continue`, in one state only, and is there in the loop again. -/
def TurnContinues (pred : κ → κ → Bool) (proj : α → κ) (nth : Nat) (s : NthState α) : Prop :=
  ∃ l i m x n fuel, Continues pred proj nth s l i m ∧
    (∀ l' i' m', Continues pred proj nth s l' i' m' → l' = l ∧ i' = i ∧ m' = m) ∧
    AtContinue (projected pred proj) nth s l i m x ∧
    nthTurn pred proj nth s =
      (guardLoop pred proj nth s.last m (fuel + 1) l i i (i - 1) n >>=
        resume pred proj nth s.last m)

theorem nthTurn_eq_partitionTurn {nth : Nat} {s : NthState α} (hne : nth ≠ s.last)
    (hlong : nthLimit < s.last - s.first) :
    nthTurn pred proj nth s = partitionTurn pred proj nth s := by
  have hmore : 3 < s.last - s.first := Nat.lt_trans (by decide) hlong
  rw [nthTurn_more hne hmore, if_neg (Nat.not_le.mpr hlong)]

section
variable {nth last m first i j n fuel : Nat} {l r : List α}

theorem guardLoop_done (hfind : findGuard pred proj l i m j = .ok none)
    (hgather : gather pred proj nth l first last i n = .ok (.done r)) :
    guardLoop pred proj nth last m (fuel + 1) l first i j n = .ok (.done r) := by
  rw [guardLoop, hfind, exec_bind_ok]
  dsimp only
  rw [hgather, exec_bind_ok]

/-- The `continue`. -/
theorem guardLoop_apart {i' j' n' : Nat} (hfind : findGuard pred proj l i m j = .ok none)
    (hgather : gather pred proj nth l first last i n = .ok (.apart r i' j' n')) :
    guardLoop pred proj nth last m (fuel + 1) l first i j n =
      guardLoop pred proj nth last m fuel r i' i' j' n' := by
  rw [guardLoop, hfind, exec_bind_ok]
  dsimp only
  rw [hgather, exec_bind_ok]

end

/-- Where nothing is smaller than the first element and one more is equivalent to it. -/
theorem gather_turn (h : StrictWeakOrder pred) {nth m n : Nat} {s : NthState α} {l : List α}
    {a b : α} (hs : Holding nth s) (hwithin : Within s.first s.last s.list l)
    (hm : s.first < m ∧ m < s.last) (ha : l[s.first]? = some a) (hb : l[m]? = some b)
    (hab : projected pred proj a b = false)
    (hleast : LeastIn (projected pred proj) l s.first s.last a) :
    (∃ r v, gather pred proj nth l s.first s.last s.first n = .ok (.done r) ∧
        Within s.first s.last s.list r ∧
        PlacedIn (projected pred proj) r s.first s.last nth v) ∨
      ∃ r i n', gather pred proj nth l s.first s.last s.first n = .ok (.apart r i (i - 1) n') ∧
        AtContinue (projected pred proj) nth s r i m a := by
  obtain ⟨r, v, hrun, hgather, hplaced⟩ | ⟨r, i, j, n', hrun, hgather, hadjacent, hle, happart⟩ :=
    gather_spec h n ha (show s.first + 1 < s.last by omega)
      (hwithin.length_eq ▸ hs.last_le) hleast hs.first_le hs.lt_last
  · exact .inl ⟨r, v, hrun, hwithin.trans hgather, hplaced⟩
  · have hinside : Within s.first s.last l r := hgather.mono (Nat.le_succ _) (Nat.le_refl _)
    have htwo : s.first + 2 ≤ i := by
      have hmem : b ∈ stretch r (s.first + 1) s.last :=
        (hgather.stretch (by omega)).mem_iff.mp (mem_stretch.mpr ⟨m, hm.1, hm.2, hb⟩)
      obtain ⟨k, hk, hk', hget⟩ := mem_stretch.mp hmem
      by_contra hfew
      have hright := happart.right k b (by omega) hk' hget
      rw [notAbove, hab] at hright
      cases hright
    obtain rfl : j = i - 1 := by omega
    exact .inr ⟨r, i, n', hrun, hwithin.trans hinside, htwo, hle, hm,
      hleast.within (by omega) hinside, happart⟩

/-- A guard is found among the elements that are not sampled. -/
theorem guarded_turn (h : StrictWeakOrder pred) {nth m g n : Nat} {s : NthState α} {l : List α}
    {a b y : α} (hs : Holding nth s) (hwithin : Within s.first s.last s.list l)
    (hm : s.first < m ∧ m < s.last) (hg : s.first < g ∧ g < s.last)
    (ha : l[s.first]? = some a) (hb : l[m]? = some b) (hy : l[g]? = some y)
    (hab : projected pred proj a b = false) (hyb : projected pred proj y b = true)
    (hbehind : ∀ k z, g < k → k < s.last → l[k]? = some z → projected pred proj z b = false) :
    ∃ t r, iterSwap l s.first g = .ok r ∧
      finishTurn pred proj nth r s.first s.first g s.last m n = .ok t ∧
      Progress (projected pred proj) nth s t := by
  have hne : m ≠ g := by
    rintro rfl
    rw [hb, Option.some.injEq] at hy
    rw [← hy, (h.projected proj).not_self] at hyb
    cases hyb
  obtain ⟨r, hswap, hwithin', hry, hra, hrest⟩ := iterSwap_within ha hy (Nat.ne_of_lt hg.1)
    (show s.first ≤ s.first ∧ s.first < s.last by omega) (by omega)
  have hready : Exchanging (below (projected pred proj) b) r s.first (s.first + 1) g s.last := by
    refine ⟨Nat.lt_succ_self _, hg.1, hg.2, ?_, fun k z hk hk' hz => ?_, fun k z hk hk' hz => ?_⟩
    · rw [(hwithin.trans hwithin').length_eq]
      exact hs.last_le
    · obtain rfl : k = s.first := by omega
      rw [hry, Option.some.injEq] at hz
      rw [← hz]
      exact hyb
    · by_cases hkg : k = g
      · rw [hkg, hra, Option.some.injEq] at hz
        rw [← hz]
        exact hab
      · rw [hrest k (by omega) hkg] at hz
        exact hbehind k z (by omega) hk' hz
  have hb' : r[m]? = some b := by rw [hrest m (by omega) hne, hb]
  obtain ⟨t, hrun, hprogress⟩ := finishTurn_spec h n hb'
    ⟨Nat.le_of_lt hm.1, hm.2⟩ hready ⟨hs.first_le, hs.lt_last⟩
  exact ⟨t, r, hswap, hrun, hprogress.of_within (hwithin.trans hwithin')⟩

/-- The first element, the median `b` and the last have been sorted. -/
structure Sampled (pred : κ → κ → Bool) (proj : α → κ) (s : NthState α) (l : List α) (m n : Nat)
    (a b : α) : Prop where
  median : s.first + (s.last - s.first) / 2 = m
  sort : sort3 pred proj s.list s.first m (s.last - 1) = .ok (l, n)
  within : Within s.first s.last s.list l
  inside : s.first < m ∧ m < s.last - 1
  at_first : l[s.first]? = some a
  at_median : l[m]? = some b
  first_le : projected pred proj b a = false
  le_last : ∀ y, l[s.last - 1]? = some y → projected pred proj y b = false

theorem exists_sampled (h : StrictWeakOrder pred) (proj : α → κ) {nth : Nat} {s : NthState α}
    (hs : Holding nth s) (hlong : nthLimit < s.last - s.first) :
    ∃ l m n a b, Sampled pred proj s l m n a b := by
  have hlength := hs.last_le
  unfold nthLimit at hlong
  obtain ⟨m, hmedian⟩ : ∃ m, s.first + (s.last - s.first) / 2 = m := ⟨_, rfl⟩
  have hm : s.first < m ∧ m < s.last - 1 := by omega
  obtain ⟨l, n, a, b, c, hsort, hwithin, ha, hb, hc, hba, hcb⟩ :=
    sort3_spec h proj (Nat.le_refl s.first) hm.1 hm.2 (show s.last - 1 < s.last by omega)
      (show s.last - 1 < s.list.length by omega)
  refine ⟨l, m, n, a, b, hmedian, hsort, hwithin, hm, ha, hb, hba, fun y hy => ?_⟩
  rw [hc, Option.some.injEq] at hy
  rwa [← hy]

section
variable {nth m n : Nat} {s : NthState α} {l : List α} {a b : α}

theorem Sampled.turn (hsampled : Sampled pred proj s l m n a b) (hs : Holding nth s)
    (hlong : nthLimit < s.last - s.first) :
    nthTurn pred proj nth s =
      if projected pred proj a b then
        finishTurn pred proj nth l s.first s.first (s.last - 1) s.last m n
      else
        guardLoop pred proj nth s.last m (l.length + 1) l s.first s.first (s.last - 1) n >>=
          resume pred proj nth s.last m := by
  rw [nthTurn_eq_partitionTurn (Nat.ne_of_lt hs.lt_last) hlong, partitionTurn]
  dsimp only
  rw [hsampled.median, hsampled.sort, exec_bind_ok]
  dsimp only
  rw [lessAt_eq hsampled.at_first hsampled.at_median, exec_bind_ok]

/-- What a state at the `continue` has to be. -/
theorem Sampled.continues (hsampled : Sampled pred proj s l m n a b) {l' : List α} {i m' : Nat}
    (hcontinues : Continues pred proj nth s l' i m') :
    m' = m ∧ projected pred proj a b = false ∧
      findGuard pred proj l s.first m (s.last - 1) = .ok none ∧
      ∃ j n', gather pred proj nth l s.first s.last s.first n = .ok (.apart l' i j n') := by
  obtain ⟨_, _, hm, l₁, n₁, j, n', hsort, hless, hfind, hgather⟩ := hcontinues
  rw [hsampled.median] at hm
  subst hm
  obtain ⟨rfl, rfl⟩ := Prod.mk.inj (Except.ok.inj (hsampled.sort.symm.trans hsort))
  rw [lessAt_eq hsampled.at_first hsampled.at_median, Except.ok.injEq] at hless
  exact ⟨rfl, hless, hfind, j, n', hgather⟩

/-- Nor is the last element smaller than the median. -/
theorem Sampled.behind (hsampled : Sampled pred proj s l m n a b) {g : Nat}
    (hall : ∀ k y, g < k → k < s.last - 1 → l[k]? = some y → projected pred proj y b = false) :
    ∀ k y, g < k → k < s.last → l[k]? = some y → projected pred proj y b = false := by
  intro k y hk hk' hy
  rcases Nat.lt_or_ge k (s.last - 1) with hbefore | hlast
  · exact hall k y hk hbefore hy
  · obtain rfl : k = s.last - 1 := by omega
    exact hsampled.le_last y hy

/-- If nothing behind the first element is smaller than the median, nothing is smaller than the
first element. -/
theorem Sampled.leastIn (hsampled : Sampled pred proj s l m n a b) (h : StrictWeakOrder pred)
    (hall : ∀ k y, s.first < k → k < s.last → l[k]? = some y → projected pred proj y b = false) :
    LeastIn (projected pred proj) l s.first s.last a := by
  have hproj := h.projected proj
  intro y hy
  obtain ⟨k, hk, hk', hget⟩ := mem_stretch.mp hy
  rcases Nat.eq_or_lt_of_le hk with heq | hinner
  · rw [← heq, hsampled.at_first, Option.some.injEq] at hget
    rw [← hget]
    exact hproj.not_self a
  · exact hproj.not_lt_trans hsampled.first_le (hall k y hinner hk' hget)

/-- The first element is the guard. -/
theorem nthTurn_first_guard (h : StrictWeakOrder pred) (hs : Holding nth s)
    (hlong : nthLimit < s.last - s.first) (hsampled : Sampled pred proj s l m n a b)
    (hab : projected pred proj a b = true) : TurnDone pred proj nth s := by
  have hlen := hsampled.within.length_eq
  have hlength := hs.last_le
  obtain ⟨hm, hm'⟩ := hsampled.inside
  have hready : Exchanging (below (projected pred proj) b) l s.first (s.first + 1) (s.last - 1)
      s.last := by
    refine ⟨Nat.lt_succ_self _, by omega, by omega, by omega, fun k y hk hk' hy => ?_,
      fun k y hk hk' hy => ?_⟩
    · obtain rfl : k = s.first := by omega
      rw [hsampled.at_first, Option.some.injEq] at hy
      rw [← hy]
      exact hab
    · obtain rfl : k = s.last - 1 := by omega
      exact hsampled.le_last y hy
  obtain ⟨t, hrun, hprogress⟩ := finishTurn_spec h n hsampled.at_median
    ⟨Nat.le_of_lt hm, by omega⟩ hready ⟨hs.first_le, hs.lt_last⟩
  refine ⟨t, ?_, hprogress.of_within hsampled.within, fun l' i m' hcontinues => ?_⟩
  · rw [hsampled.turn hs hlong, if_pos hab, hrun]
  · have hnot := (hsampled.continues hcontinues).2.1
    rw [hab] at hnot
    cases hnot

/-- There is a guard behind the first element. -/
theorem nthTurn_guarded (h : StrictWeakOrder pred) (hs : Holding nth s)
    (hlong : nthLimit < s.last - s.first) (hsampled : Sampled pred proj s l m n a b)
    (hab : projected pred proj a b = false) {g : Nat} {y : α}
    (hfind : findGuard pred proj l s.first m (s.last - 1) = .ok (some g))
    (hg : s.first < g) (hg' : g < s.last - 1) (hy : l[g]? = some y)
    (hyb : projected pred proj y b = true)
    (hall : ∀ k z, g < k → k < s.last - 1 → l[k]? = some z → projected pred proj z b = false) :
    TurnDone pred proj nth s := by
  obtain ⟨hm, hm'⟩ := hsampled.inside
  obtain ⟨t, r, hswap, hrun, hprogress⟩ := guarded_turn (n := incSwaps n) h hs hsampled.within
    ⟨hm, by omega⟩ ⟨hg, by omega⟩ hsampled.at_first hsampled.at_median hy hab hyb
    (hsampled.behind hall)
  refine ⟨t, ?_, hprogress, fun l' i m' hcontinues => ?_⟩
  · rw [hsampled.turn hs hlong, hab, if_neg (by simp), guardLoop, hfind, exec_bind_ok]
    dsimp only
    rw [hswap, exec_bind_ok, exec_bind_ok]
    exact hrun
  · have hnone := (hsampled.continues hcontinues).2.2.1
    rw [hfind] at hnone
    cases hnone

/-- There is no guard: elements equivalent to the first are gathered. -/
theorem nthTurn_no_guard (h : StrictWeakOrder pred) (hs : Holding nth s)
    (hlong : nthLimit < s.last - s.first) (hsampled : Sampled pred proj s l m n a b)
    (hab : projected pred proj a b = false)
    (hfind : findGuard pred proj l s.first m (s.last - 1) = .ok none)
    (hall : ∀ k y, s.first < k → k < s.last - 1 → l[k]? = some y →
      projected pred proj y b = false) :
    TurnDone pred proj nth s ∨ TurnContinues pred proj nth s := by
  have hlen := hsampled.within.length_eq
  have hlength := hs.last_le
  obtain ⟨hm, hm'⟩ := hsampled.inside
  have hleast := hsampled.leastIn h (hsampled.behind hall)
  have hturn := hsampled.turn hs hlong
  rw [hab, if_neg (by simp)] at hturn
  obtain ⟨r, v, hgather, hwithin, hplaced⟩ | ⟨r, i, n', hgather, hat⟩ :=
    gather_turn (n := n) h hs hsampled.within ⟨hm, show m < s.last by omega⟩ hsampled.at_first
      hsampled.at_median hab hleast
  · rw [guardLoop_done hfind hgather, exec_bind_ok] at hturn
    refine .inl ⟨.done r, hturn, ⟨hwithin, v, hplaced⟩, fun l' i m' hcontinues => ?_⟩
    obtain ⟨_, _, _, j, n'', hapart⟩ := hsampled.continues hcontinues
    rw [hgather] at hapart
    cases hapart
  · obtain ⟨fuel, hfuel⟩ : ∃ fuel, l.length = fuel + 1 := ⟨l.length - 1, by omega⟩
    rw [guardLoop_apart hfind hgather, hfuel] at hturn
    refine .inr ⟨r, i, m, a, n', fuel, ⟨Nat.ne_of_lt hs.lt_last, hlong, hsampled.median.symm, l, n,
      i - 1, n', hsampled.sort, ?_, hfind, hgather⟩, fun l' i' m' hcontinues => ?_, hat, hturn⟩
    · rw [lessAt_eq hsampled.at_first hsampled.at_median, hab]
    · obtain ⟨rfl, _, _, j, n'', hapart⟩ := hsampled.continues hcontinues
      rw [hgather, Except.ok.injEq, Gathered.apart.injEq] at hapart
      exact ⟨hapart.1.symm, hapart.2.1.symm, rfl⟩

theorem nthTurn_long (h : StrictWeakOrder pred) (proj : α → κ) (hs : Holding nth s)
    (hlong : nthLimit < s.last - s.first) :
    TurnDone pred proj nth s ∨ TurnContinues pred proj nth s := by
  obtain ⟨l, m, n, a, b, hsampled⟩ := exists_sampled h proj hs hlong
  have hlen := hsampled.within.length_eq
  have hlength := hs.last_le
  have hinside : s.first < s.last - 1 := Nat.lt_trans hsampled.inside.1 hsampled.inside.2
  cases hab : projected pred proj a b with
  | true => exact .inl (nthTurn_first_guard h hs hlong hsampled hab)
  | false =>
    obtain ⟨hfind, hall⟩ | ⟨g, y, hfind, hg, hg', hy, hyb, hall⟩ :=
      findGuard_spec pred proj hsampled.at_median s.first (show s.last - 1 ≤ l.length by omega)
    · rw [if_pos hinside] at hfind
      exact nthTurn_no_guard h hs hlong hsampled hab hfind
        fun k y hk hk' hy => hall k y (fun _ => hk) hk' hy
    · exact .inl (nthTurn_guarded h hs hlong hsampled hab hfind (hg hinside) hg' hy hyb hall)

end

theorem nthTurn_spec (h : StrictWeakOrder pred) (proj : α → κ) {nth : Nat} {s : NthState α}
    (hs : Holding nth s) : TurnDone pred proj nth s ∨ TurnContinues pred proj nth s := by
  rcases Nat.lt_or_ge nthLimit (s.last - s.first) with hlong | hshort
  · exact nthTurn_long h proj hs hlong
  · obtain ⟨t, hrun, hprogress⟩ := nthTurn_short h proj hs hshort
    exact .inl ⟨t, hrun, hprogress, fun l i m hcontinues =>
      absurd hcontinues.2.1 (Nat.not_lt.mpr hshort)⟩

end EARanges.Algorithm
