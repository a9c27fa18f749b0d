import EARanges.Algorithm.AdjacentRemoveIf
import EARanges.Iterator.RangeTraits
import EARanges.Support.Numbered

/-!
# `adjacent_remove_if_view`

view/adjacent_remove_if.hpp. A cursor is an iterator of the base that stands on an element
which is kept, or at the end. The way back looks at an element and the one behind it, and
takes the last element as it is.
-/
namespace EARanges.View
open EARanges.Support EARanges.Algorithm EARanges.Iterator

variable {α κ : Type}

structure AdjacentRemoveIfView (α : Type) where
  base : List α
  pred : α → α → Bool

namespace AdjacentRemoveIfView

/-- The loop of `satisfy_forward` on an iterator that is not at the end. -/
def satisfyForwardLoop (v : AdjacentRemoveIfView α) : Nat → Nat → Exec Nat
  | 0, _ => .error .fuel
  | fuel + 1, it => do
    let nxt ← incr v.base it
    if nxt = v.base.length then .ok it
    else
      let x ← deref v.base it
      let y ← deref v.base nxt
      if v.pred x y then satisfyForwardLoop v fuel nxt else .ok it

def satisfyForward (v : AdjacentRemoveIfView α) (it : Nat) : Exec Nat :=
  if it = v.base.length then .ok it else satisfyForwardLoop v v.base.length it

/-- The loop of `satisfy_reverse`; its assertion fails at `first`. -/
def satisfyReverseLoop (v : AdjacentRemoveIfView α) (first : Nat) : Nat → Nat → Nat → Exec Nat
  | 0, _, _ => .error .fuel
  | fuel + 1, it, prv => do
    let x ← deref v.base it
    let y ← deref v.base prv
    if v.pred x y then
      if it = first then .error .fault
      else
        let prv := it
        let it ← stepBack it
        satisfyReverseLoop v first fuel it prv
    else .ok it

def satisfyReverse (v : AdjacentRemoveIfView α) (first it : Nat) : Exec Nat :=
  if it = first then .error .fault
  else do
    let prv := it
    let it ← stepBack it
    if prv = v.base.length then .ok it
    else satisfyReverseLoop v first v.base.length it prv

/-- `cache_begin` and `begin_`: the memoised iterator and the first cursor. -/
def cacheBegin (v : AdjacentRemoveIfView α) (cache : Option Nat) : Exec (Option Nat × Nat) :=
  memoised cache (satisfyForward v 0)

/-- `adaptor::next`. -/
def next (v : AdjacentRemoveIfView α) (it : Nat) : Exec Nat :=
  if it = v.base.length then .error .fault
  else do
    let it ← incr v.base it
    satisfyForward v it

/-- `adaptor::prev`, which reads the memoised iterator. -/
def prev (v : AdjacentRemoveIfView α) (cache : Option Nat) (it : Nat) : Exec Nat :=
  match cache with
  | some first => satisfyReverse v first it
  | none => .error .fault

/-- A loop over the view, whose memoised iterator is `cache` by then. -/
def loop (v : AdjacentRemoveIfView α) (cache : Option Nat) : Loop Nat α where
  start := do
    let (_, first) ← cacheBegin v cache
    .ok first
  atEnd it := .ok (decide (it = v.base.length))
  read := deref v.base
  next := next v

/-- What the memoised iterator can be: calls of `begin` and `end` have filled it. -/
inductive Cached (v : AdjacentRemoveIfView α) : Option Nat → Prop
  | fresh : Cached v none
  | filled {cache cache' : Option Nat} {first : Nat} :
      Cached v cache → cacheBegin v cache = .ok (cache', first) → Cached v cache'

variable {v : AdjacentRemoveIfView α}

/-! ## Forward -/

theorem satisfyForwardLoop_spec (fuel it : Nat) (hit : it < v.base.length)
    (hfuel : v.base.length ≤ it + fuel) :
    ∃ t, satisfyForwardLoop v fuel it = .ok t ∧ FirstKept v.pred v.base it t := by
  induction fuel generalizing it with
  | zero => omega
  | succ fuel ih =>
    have hstop (hkeep : KeepsAt v.pred v.base it) : FirstKept v.pred v.base it it :=
      ⟨Nat.le_refl it, .inr hkeep, fun k hk hlt => by omega⟩
    rw [satisfyForwardLoop, incr_ok hit, exec_bind_ok]
    by_cases hend : it + 1 = v.base.length
    · rw [if_pos hend]
      exact ⟨it, rfl, hstop (.inl hend)⟩
    · have hin : it + 1 < v.base.length := by omega
      obtain ⟨x, hx⟩ : ∃ x, v.base[it]? = some x := ⟨_, List.getElem?_eq_getElem hit⟩
      obtain ⟨y, hy⟩ : ∃ y, v.base[it + 1]? = some y := ⟨_, List.getElem?_eq_getElem hin⟩
      rw [if_neg hend, deref_of_some hx, exec_bind_ok, deref_of_some hy, exec_bind_ok]
      cases htest : v.pred x y with
      | false => exact ⟨it, rfl, hstop (.inr ⟨x, y, hx, hy, htest⟩)⟩
      | true =>
        obtain ⟨t, hrun, ht⟩ := ih (it + 1) hin (by omega)
        refine ⟨t, hrun, Nat.le_of_succ_le ht.le, ht.stands, fun k hk hkt => ?_⟩
        obtain hk | rfl := Nat.lt_or_eq_of_le hk
        · exact ht.between k hk hkt
        · exact ⟨x, y, hx, hy, htest⟩

theorem satisfyForward_spec {it : Nat} (hit : it ≤ v.base.length) :
    ∃ t, satisfyForward v it = .ok t ∧ FirstKept v.pred v.base it t := by
  rw [satisfyForward]
  split
  next hend => exact ⟨it, rfl, Nat.le_refl it, .inl hend, fun k hk hlt => by omega⟩
  next hend => exact satisfyForwardLoop_spec v.base.length it (by omega) (by omega)

/-- However often `begin` has been asked for, it is the first element that is kept. -/
theorem cacheBegin_spec {cache : Option Nat} (h : Cached v cache) :
    ∃ first, cacheBegin v cache = .ok (some first, first) ∧ FirstKept v.pred v.base 0 first := by
  obtain ⟨first, hrun, hfirst⟩ := satisfyForward_spec (Nat.zero_le v.base.length)
  have hcache : cache = none ∨ cache = some first := by
    induction h with
    | fresh => exact .inl rfl
    | filled _ hfill ih =>
      rw [cacheBegin, memoised_eq ih hrun] at hfill
      cases hfill
      exact .inr rfl
  exact ⟨first, memoised_eq hcache hrun, hfirst⟩

theorem next_spec {it : Nat} (hit : it < v.base.length) :
    ∃ t, next v it = .ok t ∧ FirstKept v.pred v.base (it + 1) t := by
  rw [next, if_neg (Nat.ne_of_lt hit), incr_ok hit, exec_bind_ok]
  exact satisfyForward_spec hit

theorem loop_numbers {cache : Option Nat} (h : Cached v cache) :
    (loop v cache).Numbers (keptByNext v.pred v.base) (KeptNumber v.pred v.base) := by
  refine ⟨⟨?_, fun i s hat hi => ?_⟩, fun i s hat => ?_, fun i s x hat hx => ?_⟩
  · obtain ⟨first, hrun, hfirst⟩ := cacheBegin_spec h
    refine ⟨first, ?_, hfirst.number_zero⟩
    rw [loop, hrun]
    rfl
  · obtain ⟨t, hrun, ht⟩ := next_spec (hat.keeps hi).lt
    exact ⟨t, hrun, hat.next hi ht⟩
  · exact congrArg Except.ok (decide_eq_decide.mpr hat.end_iff)
  · exact deref_of_some (hat.get hx)

/-! ## Backward -/

/-- Going back, the loop ends at the last element kept; `first` is kept, so its assertion
holds. -/
theorem satisfyReverseLoop_spec {first : Nat} (hfirst : KeepsAt v.pred v.base first)
    (fuel it : Nat) (hle : first ≤ it) (hit : it + 1 < v.base.length) (hfuel : it < fuel) :
    ∃ t, satisfyReverseLoop v first fuel it (it + 1) = .ok t ∧
      LastKept v.pred v.base (it + 1) t := by
  induction fuel generalizing it with
  | zero => omega
  | succ fuel ih =>
    obtain ⟨x, hx⟩ : ∃ x, v.base[it]? = some x := ⟨_, List.getElem?_eq_getElem (by omega)⟩
    obtain ⟨y, hy⟩ : ∃ y, v.base[it + 1]? = some y := ⟨_, List.getElem?_eq_getElem hit⟩
    rw [satisfyReverseLoop, deref_of_some hx, exec_bind_ok, deref_of_some hy, exec_bind_ok]
    cases htest : v.pred x y with
    | false =>
      exact ⟨it, rfl, Nat.lt_succ_self it, .inr ⟨x, y, hx, hy, htest⟩, fun k hk hlt => by omega⟩
    | true =>
      have hdrop : DropsAt v.pred v.base it := ⟨x, y, hx, hy, htest⟩
      have hne : it ≠ first := by
        rintro rfl
        exact hfirst.not_dropsAt hdrop
      obtain ⟨it, rfl⟩ : ∃ n, it = n + 1 := ⟨it - 1, by omega⟩
      rw [if_pos rfl, if_neg hne]
      dsimp only
      rw [stepBack_succ, exec_bind_ok]
      obtain ⟨t, hrun, ht⟩ := ih it (by omega) (by omega) (by omega)
      refine ⟨t, hrun, Nat.lt_succ_of_lt ht.lt, ht.keeps, fun k htk hk => ?_⟩
      obtain hk | rfl := Nat.lt_succ_iff_lt_or_eq.mp hk
      · exact ht.between k htk hk
      · exact hdrop

theorem satisfyReverse_spec {first it : Nat} (hfirst : FirstKept v.pred v.base 0 first)
    (hlt : first < it) (hit : it ≤ v.base.length) :
    ∃ t, satisfyReverse v first it = .ok t ∧ LastKept v.pred v.base it t := by
  obtain ⟨it, rfl⟩ : ∃ n, it = n + 1 := ⟨it - 1, by omega⟩
  rw [satisfyReverse, if_neg (by omega)]
  dsimp only
  rw [stepBack_succ, exec_bind_ok]
  by_cases hend : it + 1 = v.base.length
  · rw [if_pos hend]
    exact ⟨it, rfl, Nat.lt_succ_self it, .inl hend, fun k hk hks => by omega⟩
  · have hkeeps : KeepsAt v.pred v.base first := by
      obtain hlast | hkeeps := hfirst.stands
      · omega
      · exact hkeeps
    rw [if_neg hend]
    exact satisfyReverseLoop_spec hkeeps v.base.length it (by omega) (by omega) (by omega)

theorem prev_number {first : Nat} (hfirst : FirstKept v.pred v.base 0 first) {i s : Nat}
    (hs : KeptNumber v.pred v.base (i + 1) s) :
    ∃ t, prev v (some first) s = .ok t ∧ KeptNumber v.pred v.base i t := by
  obtain ⟨t, hrun, ht⟩ := satisfyReverse_spec hfirst (hs.first_lt hfirst) hs.le
  exact ⟨t, hrun, hs.prev ht⟩

/-- The algorithm and the view keep the same elements, those that are last or that the
predicate does not relate to the next one. Once `begin` or `end` has filled the memoised
iterator, a step back of the view undoes a step forward, from the end as well. -/
theorem adjacentRemoveIf_correct (pred : κ → κ → Bool) (proj : α → κ) (husk : α → α)
    (l : List α) :
    (∃ out, adjacentRemoveIf pred proj husk l =
        .ok (out, (keptByNext (projected pred proj) l).length) ∧
      out.length = l.length ∧
      out.take (keptByNext (projected pred proj) l).length =
        keptByNext (projected pred proj) l) ∧
    ∀ cache, Cached ⟨l, projected pred proj⟩ cache →
      (loop ⟨l, projected pred proj⟩ cache).Delivers (keptByNext (projected pred proj) l) ∧
      (loop ⟨l, projected pred proj⟩ cache).nth (keptByNext (projected pred proj) l).length =
        .ok l.length ∧
      ∃ cache' first, cacheBegin ⟨l, projected pred proj⟩ cache = .ok (cache', first) ∧
        (loop ⟨l, projected pred proj⟩ cache).PrevUndoesNext
          (prev ⟨l, projected pred proj⟩ cache') (keptByNext (projected pred proj) l).length := by
  refine ⟨adjacentRemoveIf_spec pred proj husk l, fun cache h => ?_⟩
  have hnumbers := loop_numbers h
  obtain ⟨first, hbegin, hfirst⟩ := cacheBegin_spec h
  refine ⟨hnumbers.delivers, ?_, some first, first, hbegin, ?_⟩
  · obtain ⟨s, hrun, hat⟩ := hnumbers.nth_eq (Nat.le_refl _)
    rw [hrun, hat.end_iff.mpr rfl]
  · exact hnumbers.prevUndoesNext (fun i s s' hs hs' => hs.unique hs')
      fun i s hat _ => prev_number hfirst hat

/-- Runs at the front and at the back. -/
example : adjacentRemoveIf (fun a b : Nat => decide (a = b)) id (fun _ => 0) [1, 1, 1, 2, 3, 4, 4] =
    .ok ([1, 2, 3, 4, 0, 4, 0], 4) := by decide

end AdjacentRemoveIfView

end EARanges.View
