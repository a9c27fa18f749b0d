import EARanges.Iterator.RangeTraits
import EARanges.Support.InPlace
import EARanges.Support.Nested
import EARanges.Support.Numbered

/-!
# `concat_view`

view/concat.hpp. A cursor is the variant of the components' iterators: the index of the
component and an index into it. What the source unrolls over `N` by overloads recurses
on the number of components left; what visits the variant again (`visit_i`) takes a
bound on the number of visits, twice the number of components, which is never reached.
`difference_type` is read as the integers.
-/
namespace EARanges.View
open EARanges.Support EARanges.Iterator

/-- `traits N` describes component `N`. There is at least one component. -/
structure ConcatView (α : Type) where
  rngs : List (List α)
  traits : Nat → RangeTraits
  lang : IfConstexpr
  nonempty : 0 < rngs.length

/-- The active alternative of `its_` and the iterator it holds. -/
structure ConcatCursor where
  index : Nat
  it : Nat
  deriving DecidableEq, Repr

namespace ConcatView

variable {α : Type}

def cranges (v : ConcatView α) : Nat := v.rngs.length

/-- The index of `end(get<N>(rngs_))`. -/
def last (v : ConcatView α) (N : Nat) : Nat := (innerList v.rngs N).length

/-- `satisfy` from component `N` on, which has `left` successors. -/
def satisfyFrom (v : ConcatView α) : Nat → Nat → Nat → ConcatCursor
  | 0, N, it => ⟨N, it⟩
  | left + 1, N, it => if it = v.last N then satisfyFrom v left (N + 1) 0 else ⟨N, it⟩

def satisfy (v : ConcatView α) (c : ConcatCursor) : ConcatCursor :=
  satisfyFrom v (v.cranges - 1 - c.index) c.index c.it

def beginCursor (v : ConcatView α) : ConcatCursor := satisfy v ⟨0, 0⟩

def endCursor (v : ConcatView α) : ConcatCursor := ⟨v.cranges - 1, v.last (v.cranges - 1)⟩

def read (v : ConcatView α) (c : ConcatCursor) : Exec α := deref (innerList v.rngs c.index) c.it

def next (v : ConcatView α) (c : ConcatCursor) : Exec ConcatCursor := do
  let it ← incrTo (v.last c.index) c.it
  .ok (satisfy v ⟨c.index, it⟩)

/-- `prev_fun` at component `N`. -/
def prevFrom (v : ConcatView α) : Nat → Nat → Exec ConcatCursor
  | 0, it => do
    let it ← decr (v.last 0) it
    .ok ⟨0, it⟩
  | N + 1, it =>
    if it = 0 then prevFrom v N (v.last N)
    else do
      let it ← decr (v.last (N + 1)) it
      .ok ⟨N + 1, it⟩

def prev (v : ConcatView α) (c : ConcatCursor) : Exec ConcatCursor := prevFrom v c.index c.it

/-- `advance_fwd_fun`. -/
def advanceFwd (v : ConcatView α) : Nat → Int → ConcatCursor → Exec ConcatCursor
  | 0, _, _ => .error .fuel
  | visits + 1, n, c =>
    if c.index = v.cranges - 1 then do
      let it ← advanceBy (v.traits c.index) (v.last c.index) c.it n
      .ok ⟨c.index, it⟩
    else do
      let (it, rest) ← advanceEnd v.lang (v.traits c.index) (v.last c.index) c.it n
      let c := satisfy v ⟨c.index, it⟩
      if rest ≠ 0 then advanceFwd v visits rest c else .ok c

/-- `advance_rev_fun`. -/
def advanceRev (v : ConcatView α) : Nat → Int → ConcatCursor → Exec ConcatCursor
  | 0, _, _ => .error .fuel
  | _ + 1, n, ⟨0, it⟩ => do
    let it ← advanceBy (v.traits 0) (v.last 0) it n
    .ok ⟨0, it⟩
  | visits + 1, n, ⟨N + 1, it⟩ =>
    if it = 0 then advanceRev v visits n ⟨N, v.last N⟩
    else do
      let (it, rest) ← advanceTo v.lang (v.traits (N + 1)) (v.last (N + 1)) it n 0
      if rest ≠ 0 then advanceRev v visits rest ⟨N + 1, it⟩ else .ok ⟨N + 1, it⟩

def advance (v : ConcatView α) (n : Int) (c : ConcatCursor) : Exec ConcatCursor :=
  if n > 0 then advanceFwd v (2 * v.cranges) n c
  else if n < 0 then advanceRev v (2 * v.cranges) n c
  else .ok c

/-- `distance_to_` at component `N`, one of `left` that remain. -/
def distanceFrom (v : ConcatView α) (here there : ConcatCursor) : Nat → Nat → Exec Int
  | 0, _ => .error .fault
  | left + 1, N =>
    if here.index > N then distanceFrom v here there left (N + 1)
    else if here.index = N then
      if there.index = N then .ok ((there.it : Int) - here.it)
      else do
        let d ← distanceFrom v here there left (N + 1)
        .ok ((v.last N : Int) - here.it + d)
    else if here.index < N ∧ there.index > N then do
      let d ← distanceFrom v here there left (N + 1)
      .ok (v.last N + d)
    else if there.index = N then .ok there.it
    else .error .fault

def distanceTo (v : ConcatView α) (c that : ConcatCursor) : Exec Int :=
  if c.index ≤ that.index then distanceFrom v c that v.cranges 0
  else do
    let d ← distanceFrom v that c v.cranges 0
    .ok (-d)

/-- `its_ == pos.its_`. -/
def equal (c pos : ConcatCursor) : Bool := c.index == pos.index && c.it == pos.it

/-- The sum of the sizes, from the left. -/
def size (v : ConcatView α) : Nat := (v.rngs.map List.length).foldl (· + ·) 0

def loop (v : ConcatView α) : Loop ConcatCursor α where
  start := .ok (beginCursor v)
  atEnd c := .ok (equal c (endCursor v))
  read := read v
  next := next v

/-! ## Canonical cursors -/

/-- An iterator of a component. -/
structure InComponent (v : ConcatView α) (c : ConcatCursor) : Prop where
  index_lt : c.index < v.cranges
  it_le : c.it ≤ v.last c.index

/-- The iterator is not at the end of a component that has a successor. -/
structure Canonical (v : ConcatView α) (c : ConcatCursor) : Prop extends InComponent v c where
  current : c.index = v.cranges - 1 ∨ c.it < v.last c.index

/-- The number of elements before the cursor. -/
def position (v : ConcatView α) (c : ConcatCursor) : Nat := offset v.rngs c.index + c.it

/-- The canonical cursor number `i`. -/
def At (v : ConcatView α) (i : Nat) (c : ConcatCursor) : Prop := Canonical v c ∧ v.position c = i

theorem offset_succ (v : ConcatView α) (N : Nat) :
    offset v.rngs (N + 1) = offset v.rngs N + v.last N := rfl

theorem offset_cranges (v : ConcatView α) : offset v.rngs v.cranges = v.rngs.flatten.length :=
  offset_length v.rngs

/-- A cursor of a later component has a larger number. -/
theorem position_lt {v : ConcatView α} {c c' : ConcatCursor} (h : Canonical v c)
    (h' : InComponent v c') (hlt : c.index < c'.index) : v.position c < v.position c' := by
  have hindex := h'.index_lt
  have hit : c.it < v.last c.index := h.current.resolve_left (by omega)
  have hoff := offset_add_lt v.rngs hlt hit
  unfold position
  omega

theorem At.unique {v : ConcatView α} (i : Nat) (c c' : ConcatCursor) (h : At v i c)
    (h' : At v i c') : c = c' := by
  obtain ⟨hc, hpos⟩ := h
  obtain ⟨hc', hpos'⟩ := h'
  have hindex : c.index = c'.index := by
    rcases Nat.lt_trichotomy c.index c'.index with hlt | heq | hgt
    · have := position_lt hc hc'.toInComponent hlt
      omega
    · exact heq
    · have := position_lt hc' hc.toInComponent hgt
      omega
  unfold position at hpos hpos'
  rw [hindex] at hpos
  have hit : c.it = c'.it := by omega
  cases c
  cases c'
  exact congrArg₂ ConcatCursor.mk hindex hit

/-- Short of the end the iterator can be dereferenced. -/
theorem Canonical.it_lt {v : ConcatView α} {c : ConcatCursor} (h : Canonical v c)
    (hpos : v.position c < v.rngs.flatten.length) : c.it < v.last c.index := by
  rcases h.current with hlast | hlt
  · have hindex := h.index_lt
    have hsucc : c.index + 1 = v.cranges := by omega
    have htotal := offset_cranges v
    rw [← hsucc, offset_succ] at htotal
    unfold position at hpos
    omega
  · exact hlt

theorem satisfyFrom_spec (v : ConcatView α) {left N it : Nat} (hN : N + left + 1 = v.cranges)
    (hit : it ≤ v.last N) :
    At v (offset v.rngs N + it) (satisfyFrom v left N it) ∧
      (it = v.last N → 0 < left → N < (satisfyFrom v left N it).index) ∧
      N ≤ (satisfyFrom v left N it).index := by
  induction left generalizing N it with
  | zero =>
    have hindex : N < v.cranges := by omega
    have hlast : N = v.cranges - 1 := by omega
    exact ⟨⟨⟨⟨hindex, hit⟩, .inl hlast⟩, rfl⟩, fun _ h => absurd h (Nat.lt_irrefl 0),
      Nat.le_refl N⟩
  | succ left ih =>
    rw [satisfyFrom]
    by_cases hend : it = v.last N
    · rw [if_pos hend]
      obtain ⟨hat, _, hle⟩ := ih (by omega : N + 1 + left + 1 = v.cranges) (Nat.zero_le _)
      rw [offset_succ, ← hend, Nat.add_zero] at hat
      exact ⟨hat, fun _ _ => hle, Nat.le_of_succ_le hle⟩
    · rw [if_neg hend]
      have hindex : N < v.cranges := by omega
      have hlt : it < v.last N := by omega
      exact ⟨⟨⟨⟨hindex, hit⟩, .inr hlt⟩, rfl⟩, fun h => absurd h hend, Nat.le_refl N⟩

/-- `satisfy` moves on to where the cursor is canonical, without passing an element. -/
theorem satisfy_spec {v : ConcatView α} {c : ConcatCursor} (h : InComponent v c) :
    At v (v.position c) (satisfy v c) := by
  have hindex := h.index_lt
  exact (satisfyFrom_spec v (by omega) h.it_le).1

theorem satisfy_index {v : ConcatView α} {c : ConcatCursor} (h : InComponent v c)
    (hend : c.it = v.last c.index) (hnot : c.index ≠ v.cranges - 1) :
    c.index < (satisfy v c).index := by
  have hindex := h.index_lt
  exact (satisfyFrom_spec v (by omega) h.it_le).2.1 hend (by omega)

/-! ## What the operations do -/

theorem next_spec {v : ConcatView α} {i : Nat} {c : ConcatCursor} (h : At v i c)
    (hi : i < v.rngs.flatten.length) : ∃ c', next v c = .ok c' ∧ At v (i + 1) c' := by
  obtain ⟨hc, rfl⟩ := h
  have hlt := hc.it_lt hi
  have hincr : incrTo (v.last c.index) c.it = .ok (c.it + 1) := incrTo_ok hlt
  have hsat := satisfy_spec (c := ⟨c.index, c.it + 1⟩) ⟨hc.index_lt, hlt⟩
  exact ⟨_, by rw [next, hincr, exec_bind_ok], hsat⟩

theorem prevFrom_spec {v : ConcatView α} {N it : Nat} (hN : N < v.cranges) (hit : it ≤ v.last N)
    (hpos : 0 < offset v.rngs N + it) :
    ∃ c, prevFrom v N it = .ok c ∧ At v (offset v.rngs N + it - 1) c := by
  induction N generalizing it with
  | zero =>
    have hit0 : 0 < it := by rw [offset] at hpos; omega
    have hdecr : decr (v.last 0) it = .ok (it - 1) := decr_ok hit0
    refine ⟨⟨0, it - 1⟩, by rw [prevFrom, hdecr, exec_bind_ok], ⟨⟨hN, ?_⟩, .inr ?_⟩, ?_⟩
    · dsimp only
      omega
    · dsimp only
      omega
    · unfold position offset
      dsimp only
      omega
  | succ N ih =>
    rw [prevFrom]
    split
    next hzero =>
      rw [hzero, offset_succ] at hpos ⊢
      exact ih (by omega : N < v.cranges) (Nat.le_refl (v.last N)) hpos
    next hne =>
      have hdecr : decr (v.last (N + 1)) it = .ok (it - 1) :=
        decr_ok (Nat.pos_of_ne_zero hne)
      refine ⟨⟨N + 1, it - 1⟩, by rw [hdecr, exec_bind_ok], ⟨⟨hN, ?_⟩, .inr ?_⟩, ?_⟩
      · dsimp only
        omega
      · dsimp only
        omega
      · unfold position
        dsimp only
        omega

theorem prev_spec {v : ConcatView α} {i : Nat} {c : ConcatCursor} (h : At v (i + 1) c) :
    ∃ c', prev v c = .ok c' ∧ At v i c' := by
  obtain ⟨hc, hpos⟩ := h
  unfold position at hpos
  have hprev := prevFrom_spec hc.index_lt hc.it_le (by omega)
  rwa [hpos, Nat.add_sub_cancel] at hprev

/-- Every visit but the last leaves a component behind. -/
theorem advanceFwd_spec {v : ConcatView α} {visits k : Nat} {c : ConcatCursor}
    (hc : Canonical v c) (hvisits : v.cranges ≤ c.index + visits) (hk : 0 < k)
    (hin : v.position c + k ≤ v.rngs.flatten.length) :
    ∃ c', advanceFwd v visits k c = .ok c' ∧ At v (v.position c + k) c' := by
  have hindex := hc.index_lt
  induction visits generalizing c k with
  | zero => omega
  | succ visits ih =>
    have hle := hc.it_le
    rw [advanceFwd]
    by_cases hlast : c.index = v.cranges - 1
    · rw [if_pos hlast]
      have hsucc : c.index + 1 = v.cranges := by omega
      have htotal := offset_cranges v
      rw [← hsucc, offset_succ] at htotal
      unfold position at hin
      have htarget : c.it + k ≤ v.last c.index := by omega
      have hrun := advanceBy_eq (v.traits c.index) hle htarget (Int.natCast_add _ _).symm
      refine ⟨⟨c.index, c.it + k⟩, by rw [hrun, exec_bind_ok],
        ⟨⟨hindex, htarget⟩, .inl hlast⟩, ?_⟩
      unfold position
      dsimp only
      omega
    · rw [if_neg hlast, advanceEnd_eq hle k, exec_bind_ok]
      dsimp only
      have hcomp : InComponent v ⟨c.index, min (c.it + k) (v.last c.index)⟩ :=
        ⟨hindex, Nat.min_le_right _ _⟩
      have hsat := satisfy_spec hcomp
      by_cases hrest : ((k - min k (v.last c.index - c.it) : Nat) : Int) ≠ 0
      · rw [if_pos hrest]
        have hmoved := satisfy_index hcomp (Nat.min_eq_right (by omega)) hlast
        obtain ⟨hcanonical, hpos⟩ := hsat
        have hstep : v.position ⟨c.index, min (c.it + k) (v.last c.index)⟩ +
            (k - min k (v.last c.index - c.it)) = v.position c + k := by
          unfold position
          dsimp only
          omega
        have hrec := ih (k := k - min k (v.last c.index - c.it)) hcanonical
          (by dsimp only at hmoved; omega) (by omega) (by rw [hpos, hstep]; exact hin)
          hcanonical.index_lt
        rwa [hpos, hstep] at hrec
      · rw [if_neg hrest]
        have hstep : v.position ⟨c.index, min (c.it + k) (v.last c.index)⟩ = v.position c + k := by
          unfold position
          dsimp only
          omega
        rw [hstep] at hsat
        exact ⟨_, rfl, hsat⟩

/-- On the way back a component is visited at its begin, and before that away from it. -/
theorem advanceRev_spec {v : ConcatView α} {visits k : Nat} {c : ConcatCursor}
    (hc : InComponent v c) (hvisits : 2 * c.index + min c.it 1 < visits) (hk : 0 < k)
    (hin : k ≤ v.position c) :
    ∃ c', advanceRev v visits (-k) c = .ok c' ∧ At v (v.position c - k) c' := by
  induction visits generalizing c k with
  | zero => omega
  | succ visits ih =>
    obtain ⟨index, it⟩ := c
    have hindex : index < v.cranges := hc.index_lt
    have hle : it ≤ v.last index := hc.it_le
    have hpos : v.position ⟨index, it⟩ = offset v.rngs index + it := rfl
    rw [hpos] at hin ⊢
    cases index with
    | zero =>
      rw [offset, Nat.zero_add] at hin ⊢
      have htarget : it - k ≤ v.last 0 := by omega
      have hrun := advanceBy_eq (v.traits 0) hle htarget
        (by omega : (it : Int) + -(k : Int) = (it - k : Nat))
      rw [advanceRev, hrun, exec_bind_ok]
      exact ⟨_, rfl, ⟨⟨hindex, htarget⟩, .inr (by omega : it - k < v.last 0)⟩, Nat.zero_add _⟩
    | succ N =>
      rw [advanceRev]
      by_cases hzero : it = 0
      · subst hzero
        rw [if_pos rfl]
        have hprev : v.position ⟨N, v.last N⟩ = offset v.rngs (N + 1) + 0 := rfl
        have hrec := ih (c := ⟨N, v.last N⟩) ⟨(by omega : N < v.cranges), Nat.le_refl _⟩
          (by dsimp only at hvisits ⊢; omega) hk (by rw [hprev]; exact hin)
        rwa [hprev] at hrec
      · rw [if_neg hzero, advanceTo_begin_eq k hle (Nat.pos_of_ne_zero hzero), exec_bind_ok]
        dsimp only
        by_cases hrest : -((k - min k it : Nat) : Int) ≠ 0
        · rw [if_pos hrest]
          have hend : it - k = 0 := by omega
          have hprev : v.position ⟨N + 1, it - k⟩ = offset v.rngs (N + 1) + (it - k) := rfl
          have hrec := ih (k := k - min k it) (c := ⟨N + 1, it - k⟩)
            ⟨hindex, (by omega : it - k ≤ v.last (N + 1))⟩
            (by dsimp only at hvisits ⊢; omega) (by omega) (by rw [hprev]; omega)
          rw [hprev] at hrec
          have hleft : offset v.rngs (N + 1) + (it - k) - (k - min k it) =
              offset v.rngs (N + 1) + it - k := by omega
          rwa [hleft] at hrec
        · rw [if_neg hrest]
          refine ⟨_, rfl, ⟨⟨hindex, (by omega : it - k ≤ v.last (N + 1))⟩,
            .inr (by omega : it - k < v.last (N + 1))⟩, ?_⟩
          show offset v.rngs (N + 1) + (it - k) = offset v.rngs (N + 1) + it - k
          omega

theorem advance_spec {v : ConcatView α} {i j : Nat} {c : ConcatCursor} (h : At v i c)
    (hj : j ≤ v.rngs.flatten.length) :
    ∃ c', advance v ((j : Int) - i) c = .ok c' ∧ At v j c' := by
  obtain ⟨hc, rfl⟩ := h
  have hindex := hc.index_lt
  rcases Nat.lt_trichotomy (v.position c) j with hlt | rfl | hgt
  · obtain ⟨k, rfl⟩ := Nat.exists_eq_add_of_le (Nat.le_of_lt hlt)
    have hn : ((v.position c + k : Nat) : Int) - v.position c = k := by omega
    rw [hn, advance, if_pos (by omega)]
    exact advanceFwd_spec hc (by omega) (by omega) hj
  · rw [Int.sub_self, advance, if_neg (by omega), if_neg (by omega)]
    exact ⟨c, rfl, hc, rfl⟩
  · have hn : (j : Int) - v.position c = -((v.position c - j : Nat) : Int) := by omega
    have hleft : v.position c - (v.position c - j) = j := by omega
    have hvisits : 2 * c.index + min c.it 1 < 2 * v.cranges := by omega
    have hrev := advanceRev_spec (k := v.position c - j) hc.toInComponent hvisits
      (by omega) (by omega)
    rw [hleft] at hrev
    rwa [hn, advance, if_neg (by omega), if_pos (by omega)]

/-- Behind the component of `here` the distance is counted from the begin of the component. -/
theorem distanceFrom_behind {v : ConcatView α} {here there : ConcatCursor}
    (hthere : there.index < v.cranges) {left N : Nat} (hN : N + left = v.cranges)
    (hhere : here.index < N) (hle : N ≤ there.index) :
    distanceFrom v here there left N = .ok ((v.position there : Int) - offset v.rngs N) := by
  induction left generalizing N with
  | zero => omega
  | succ left ih =>
    rw [distanceFrom, if_neg (by omega), if_neg (by omega)]
    by_cases heq : there.index = N
    · rw [if_neg (by omega), if_pos heq, ← heq]
      congr 1
      unfold position
      omega
    · rw [if_pos ⟨hhere, by omega⟩, ih (by omega) (by omega) (by omega), exec_bind_ok, offset_succ]
      congr 1
      omega

theorem distanceFrom_eq {v : ConcatView α} {here there : ConcatCursor}
    (hthere : there.index < v.cranges) (hle : here.index ≤ there.index) {left N : Nat}
    (hN : N + left = v.cranges) (hhere : N ≤ here.index) :
    distanceFrom v here there left N = .ok ((v.position there : Int) - v.position here) := by
  induction left generalizing N with
  | zero => omega
  | succ left ih =>
    rw [distanceFrom]
    by_cases hlt : here.index > N
    · rw [if_pos hlt]
      exact ih (by omega) hlt
    · have heq : here.index = N := by omega
      rw [if_neg hlt, if_pos heq]
      by_cases hsame : there.index = N
      · rw [if_pos hsame]
        congr 1
        unfold position
        rw [heq, hsame]
        omega
      · rw [if_neg hsame, distanceFrom_behind hthere (by omega) (by omega) (by omega), exec_bind_ok,
          offset_succ]
        congr 1
        unfold position
        rw [heq]
        omega

theorem distanceTo_eq {v : ConcatView α} {c that : ConcatCursor} (hc : c.index < v.cranges)
    (hthat : that.index < v.cranges) :
    distanceTo v c that = .ok ((v.position that : Int) - v.position c) := by
  rw [distanceTo]
  split
  next hle => exact distanceFrom_eq hthat hle (Nat.zero_add _) (Nat.zero_le _)
  next hgt =>
    rw [distanceFrom_eq hc (by omega) (Nat.zero_add _) (Nat.zero_le _), exec_bind_ok]
    congr 1
    omega

theorem equal_iff (c c' : ConcatCursor) : equal c c' = true ↔ c = c' := by
  cases c
  cases c'
  simp [equal]

theorem At.equal_iff {v : ConcatView α} {i j : Nat} {c c' : ConcatCursor} (h : At v i c)
    (h' : At v j c') : equal c c' = true ↔ i = j := by
  rw [ConcatView.equal_iff]
  constructor
  · rintro rfl
    exact h.2.symm.trans h'.2
  · rintro rfl
    exact At.unique i c c' h h'

theorem endCursor_at (v : ConcatView α) : At v v.rngs.flatten.length (endCursor v) := by
  have hpos : 0 < v.cranges := v.nonempty
  have hindex : v.cranges - 1 < v.cranges := by omega
  refine ⟨⟨⟨hindex, Nat.le_refl _⟩, .inl rfl⟩, ?_⟩
  have hsucc : v.cranges - 1 + 1 = v.cranges := by omega
  have htotal := offset_cranges v
  rw [← hsucc, offset_succ] at htotal
  exact htotal

theorem loop_numbers (v : ConcatView α) : (loop v).Numbers v.rngs.flatten (At v) := by
  refine ⟨⟨?_, ?_⟩, ?_, ?_⟩
  · exact ⟨_, rfl, satisfy_spec (c := ⟨0, 0⟩) ⟨v.nonempty, Nat.zero_le _⟩⟩
  · exact fun i c h hi => next_spec h hi
  · intro i c h
    apply congrArg Except.ok
    rw [Bool.eq_iff_iff, decide_eq_true_eq]
    exact h.equal_iff v.endCursor_at
  · rintro i c x ⟨hc, rfl⟩ hx
    have hit := hc.it_lt (List.getElem?_eq_some_iff.mp hx).1
    have helem := flatten_getElem? v.rngs hit
    unfold position at hx
    rw [hx] at helem
    simp only [loop, read, deref, ← helem]

/-! ## The append law -/

/-- The view is the concatenation of its components, and can be walked, jumped over and
measured as far as they can. -/
structure AppendLaw (v : ConcatView α) : Prop where
  forward : (loop v).Delivers v.rngs.flatten
  size_eq : size v = v.rngs.flatten.length
  end_eq : (loop v).nth (size v) = .ok (endCursor v)
  prev_next : (∀ N < v.cranges, (v.traits N).bidirectional = true) →
    (loop v).PrevUndoesNext (prev v) (size v)
  jumps : (∀ N < v.cranges, (v.traits N).randomAccess = true) →
    (loop v).JumpsAreSteps (prev v) (advance v) (size v) fun _ => True
  distances : (∀ N < v.cranges, (v.traits N).sizedIterator = true) →
    (loop v).DistancesAreSteps (distanceTo v) (size v) fun _ => True
  equals : (loop v).EqualsArePositions equal (size v)

theorem size_eq (v : ConcatView α) : size v = v.rngs.flatten.length := by
  rw [size, ← List.sum_eq_foldl, List.length_flatten]

end ConcatView

end EARanges.View
