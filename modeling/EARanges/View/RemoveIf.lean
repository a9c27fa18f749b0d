import EARanges.Iterator.RangeTraits
import EARanges.Support.KeptPositions

/-!
# `remove_if_view`

view/remove_if.hpp. A cursor is an iterator of the base that stands on an element which does
not satisfy the predicate, or at the end. The first of these is memoised; the way back relies on
it, and on nothing else, to stop.
-/
namespace EARanges.View
open EARanges.Support EARanges.Iterator

variable {α : Type}

structure RemoveIfView (α : Type) where
  base : List α
  pred : α → Bool

namespace RemoveIfView

/-- `while(it != last && pred(*it)) ++it`. -/
def satisfyForward (v : RemoveIfView α) : Nat → Nat → Exec Nat
  | 0, _ => .error .fuel
  | fuel + 1, it =>
    if it = v.base.length then .ok it
    else do
      let x ← deref v.base it
      if v.pred x then
        let it ← incr v.base it
        satisfyForward v fuel it
      else .ok it

/-- `do { EARANGES_ASSERT(it != first); --it; } while(pred(*it))`. -/
def satisfyReverse (v : RemoveIfView α) (first : Nat) : Nat → Nat → Exec Nat
  | 0, _ => .error .fuel
  | fuel + 1, it =>
    if it = first then .error .fault
    else do
      let it ← stepBack it
      let x ← deref v.base it
      if v.pred x then satisfyReverse v first fuel it else .ok it

/-- The memoised iterator and what it is set to. -/
def cacheBegin (v : RemoveIfView α) (cache : Option Nat) : Exec (Option Nat × Nat) :=
  memoised cache (satisfyForward v (v.base.length + 1) 0)

/-- `end` of a common range, which memoises for `prev` as well. -/
def endCursor (v : RemoveIfView α) (t : RangeTraits) (cache : Option Nat) :
    Exec (Option Nat × Nat) :=
  if t.bidirectional then do
    let (cache, _) ← cacheBegin v cache
    .ok (cache, v.base.length)
  else .ok (cache, v.base.length)

/-- `adaptor::next`. -/
def next (v : RemoveIfView α) (it : Nat) : Exec Nat :=
  if it = v.base.length then .error .fault
  else do
    let it ← incr v.base it
    satisfyForward v (v.base.length + 1) it

/-- `adaptor::prev`; the assertion in `satisfy_reverse` is that there is a memoised iterator. -/
def prev (v : RemoveIfView α) (cache : Option Nat) (it : Nat) : Exec Nat :=
  match cache with
  | some first => satisfyReverse v first (v.base.length + 1) it
  | none => .error .fault

/-- A loop over the view, whose memoised iterator is `cache` by then. -/
def loop (v : RemoveIfView α) (cache : Option Nat) : Loop Nat α where
  start := do
    let (_, first) ← cacheBegin v cache
    .ok first
  atEnd it := .ok (decide (it = v.base.length))
  read := deref v.base
  next := next v

/-- What the memoised iterator can be: calls of `begin` and `end` have filled it. -/
inductive Cached (v : RemoveIfView α) (t : RangeTraits) : Option Nat → Prop
  | fresh : Cached v t none
  | begin_ {cache cache' : Option Nat} {first : Nat} :
      Cached v t cache → cacheBegin v cache = .ok (cache', first) → Cached v t cache'
  | end_ {cache cache' : Option Nat} {last : Nat} :
      Cached v t cache → endCursor v t cache = .ok (cache', last) → Cached v t cache'

variable {v : RemoveIfView α}

/-- The elements the view keeps, by position. -/
def keeps (v : RemoveIfView α) (k : Nat) : Bool :=
  match v.base[k]? with
  | some x => !v.pred x
  | none => false

theorem keeps_of_get {k : Nat} {x : α} (hx : v.base[k]? = some x) : v.keeps k = !v.pred x := by
  rw [keeps, hx]

theorem keptBefore_eq {s : Nat} (hs : s ≤ v.base.length) :
    keptBefore v.keeps v.base s = (v.base.take s).filter fun x => !v.pred x := by
  induction s with
  | zero => simp [keptBefore]
  | succ s ih =>
    have hkeeps := keeps_of_get (List.getElem?_eq_getElem (Nat.lt_of_succ_le hs))
    rw [keptBefore_succ v.keeps hs, ih (Nat.le_of_lt hs), List.take_succ_eq_append_getElem hs,
      List.filter_append, hkeeps, List.filter_singleton]
    cases v.pred v.base[s] <;> rfl

/-- Forward traversal is filtering. -/
theorem keptAt_eq (v : RemoveIfView α) :
    keptAt v.keeps v.base = v.base.filter fun x => !v.pred x := by
  rw [keptAt, keptBefore_eq (Nat.le_refl _), List.take_length]

theorem satisfyForward_spec (fuel it : Nat) (hit : it ≤ v.base.length)
    (hfuel : v.base.length < it + fuel) :
    ∃ t, satisfyForward v fuel it = .ok t ∧ FirstFrom v.keeps v.base it t := by
  induction fuel generalizing it with
  | zero => omega
  | succ fuel ih =>
    rw [satisfyForward]
    split
    next hend => exact ⟨it, rfl, Nat.le_refl it, .inl hend, fun k hk hkt => by omega⟩
    next hend =>
      have hlt : it < v.base.length := Nat.lt_of_le_of_ne hit hend
      have hget := List.getElem?_eq_getElem hlt
      have hkeeps := keeps_of_get hget
      rw [deref_of_some hget, exec_bind_ok]
      cases htest : v.pred v.base[it] with
      | true =>
        obtain ⟨t, hrun, ht⟩ := ih (it + 1) hlt (by omega)
        rw [if_pos rfl, incr_ok hlt, exec_bind_ok]
        refine ⟨t, hrun, Nat.le_of_succ_le ht.le, ht.stands, fun k hk hkt => ?_⟩
        obtain hk | rfl := Nat.lt_or_eq_of_le hk
        · exact ht.between k hk hkt
        · rw [hkeeps, htest]; rfl
      | false =>
        rw [if_neg Bool.false_ne_true]
        refine ⟨it, rfl, Nat.le_refl it, .inr ⟨hlt, ?_⟩, fun k hk hkt => by omega⟩
        rw [hkeeps, htest]; rfl

/-- However often `begin` and `end` have been asked for, it is the first element kept. -/
theorem cacheBegin_spec {t : RangeTraits} {cache : Option Nat} (h : Cached v t cache) :
    ∃ first, cacheBegin v cache = .ok (some first, first) ∧ FirstFrom v.keeps v.base 0 first := by
  obtain ⟨first, hrun, hfirst⟩ :=
    satisfyForward_spec (v.base.length + 1) 0 (Nat.zero_le v.base.length) (by omega)
  have hcache : cache = none ∨ cache = some first := by
    induction h with
    | fresh => exact .inl rfl
    | begin_ _ hfill ih =>
      rw [cacheBegin, memoised_eq ih hrun] at hfill
      cases hfill
      exact .inr rfl
    | end_ _ hfill ih =>
      rw [endCursor, cacheBegin, memoised_eq ih hrun] at hfill
      split at hfill <;> cases hfill
      · exact .inr rfl
      · exact ih
  exact ⟨first, memoised_eq hcache hrun, hfirst⟩

theorem next_spec {s : Nat} (hs : s < v.base.length) :
    ∃ t, next v s = .ok t ∧ FirstFrom v.keeps v.base (s + 1) t := by
  rw [next, if_neg (Nat.ne_of_lt hs), incr_ok hs, exec_bind_ok]
  exact satisfyForward_spec _ (s + 1) hs (by omega)

/-- `first` is kept, so the way back ends there at the latest. -/
theorem satisfyReverse_spec {first : Nat} (hfirst : v.keeps first = true) (fuel it : Nat)
    (hlt : first < it) (hit : it ≤ v.base.length) (hfuel : it < fuel) :
    ∃ t, satisfyReverse v first fuel it = .ok t ∧ LastBefore v.keeps it t := by
  induction fuel generalizing it with
  | zero => omega
  | succ fuel ih =>
    obtain ⟨it, rfl⟩ : ∃ n, it = n + 1 := ⟨it - 1, by omega⟩
    have hget := List.getElem?_eq_getElem (Nat.lt_of_succ_le hit)
    have hkeeps := keeps_of_get hget
    rw [satisfyReverse, if_neg (by omega), stepBack_succ, exec_bind_ok, deref_of_some hget,
      exec_bind_ok]
    cases htest : v.pred v.base[it] with
    | true =>
      rw [htest, Bool.not_true] at hkeeps
      have hne : first ≠ it := by
        rintro rfl
        rw [hfirst] at hkeeps
        cases hkeeps
      obtain ⟨t, hrun, ht⟩ := ih it (by omega) (by omega) (by omega)
      refine ⟨t, hrun, Nat.lt_succ_of_lt ht.lt, ht.keeps, fun k htk hk => ?_⟩
      obtain hk | rfl := Nat.lt_succ_iff_lt_or_eq.mp hk
      · exact ht.between k htk hk
      · exact hkeeps
    | false =>
      rw [htest, Bool.not_false] at hkeeps
      exact ⟨it, rfl, Nat.lt_succ_self it, hkeeps, fun k hk hks => by omega⟩

/-- Whatever has been memoised, the view delivers what the predicate leaves, in both
directions once `begin` or `end` has been called. -/
theorem bothWays_removeIf {t : RangeTraits} (ht : t.bidirectional = true) {cache : Option Nat}
    (h : Cached v t cache) :
    ∃ cache' first, cacheBegin v cache = .ok (cache', first) ∧
      endCursor v t cache = .ok (cache', v.base.length) ∧
      (loop v cache).BothWays (prev v cache') (v.base.filter fun x => !v.pred x)
        v.base.length := by
  obtain ⟨first, hbegin, hfirst⟩ := cacheBegin_spec h
  have hstart : (loop v cache).start = .ok first := by
    rw [loop, hbegin]
    rfl
  refine ⟨some first, first, hbegin, by rw [endCursor, if_pos ht, hbegin]; rfl, ?_⟩
  rw [← keptAt_eq]
  refine bothWays hstart hfirst (fun s hs => next_spec hs) (fun _ => rfl) rfl fun s hlt hs => ?_
  obtain hend | ⟨_, hkeep⟩ := hfirst.stands
  · omega
  · exact satisfyReverse_spec hkeep _ s hlt hs (by omega)

end RemoveIfView

end EARanges.View
