import EARanges.View.RemoveIf

/-!
# `adjacent_filter_view`

view/adjacent_filter.hpp. A cursor is an iterator of the base that stands on the first element,
on one which the predicate relates to the element before it, or at the end.
-/
namespace EARanges.View
open EARanges.Support EARanges.Iterator

variable {α : Type}

structure AdjacentFilterView (α : Type) where
  base : List α
  pred : α → α → Bool

namespace AdjacentFilterView

/-- `for(auto tmp = it; ++it != last; tmp = it) if(pred(*tmp, *it)) break`. -/
def nextLoop (v : AdjacentFilterView α) : Nat → Nat → Exec Nat
  | 0, _ => .error .fuel
  | fuel + 1, tmp => do
    let it ← incr v.base tmp
    if it = v.base.length then .ok it
    else
      let x ← deref v.base tmp
      let y ← deref v.base it
      if v.pred x y then .ok it else nextLoop v fuel it

def next (v : AdjacentFilterView α) (it : Nat) : Exec Nat :=
  if it = v.base.length then .error .fault else nextLoop v v.base.length it

/-- `while(it != first) { … }`; an element is left when it is not related to the one before. -/
def prevLoop (v : AdjacentFilterView α) : Nat → Nat → Exec Nat
  | 0, _ => .error .fuel
  | fuel + 1, it =>
    if it = 0 then .ok it
    else do
      let tmp ← stepBack it
      let x ← deref v.base tmp
      let y ← deref v.base it
      if v.pred x y then .ok it else prevLoop v fuel tmp

def prev (v : AdjacentFilterView α) (it : Nat) : Exec Nat :=
  if it = 0 then .error .fault
  else do
    let it ← stepBack it
    prevLoop v v.base.length it

def loop (v : AdjacentFilterView α) : Loop Nat α where
  start := .ok 0
  atEnd it := .ok (decide (it = v.base.length))
  read := deref v.base
  next := next v

/-- What follows `x`, as far as the predicate relates it to the element before. -/
def relatedFrom (pred : α → α → Bool) (x : α) : List α → List α
  | [] => []
  | y :: l => if pred x y then y :: relatedFrom pred y l else relatedFrom pred y l

/-- The first element, and every element related to its left neighbour. -/
def related (pred : α → α → Bool) : List α → List α
  | [] => []
  | x :: l => x :: relatedFrom pred x l

variable {v : AdjacentFilterView α}

/-- The same elements, by position. -/
def keeps (v : AdjacentFilterView α) : Nat → Bool
  | 0 => true
  | k + 1 =>
    match v.base[k]?, v.base[k + 1]? with
    | some x, some y => v.pred x y
    | _, _ => false

theorem keeps_succ {k : Nat} {x y : α} (hx : v.base[k]? = some x) (hy : v.base[k + 1]? = some y) :
    v.keeps (k + 1) = v.pred x y := by
  rw [keeps, hx, hy]

theorem nextLoop_spec (fuel it : Nat) (hit : it < v.base.length)
    (hfuel : v.base.length ≤ it + fuel) :
    ∃ t, nextLoop v fuel it = .ok t ∧ FirstFrom v.keeps v.base (it + 1) t := by
  induction fuel generalizing it with
  | zero => omega
  | succ fuel ih =>
    rw [nextLoop, incr_ok hit, exec_bind_ok]
    by_cases hend : it + 1 = v.base.length
    · rw [if_pos hend]
      exact ⟨it + 1, rfl, Nat.le_refl _, .inl hend, fun k hk hkt => by omega⟩
    · have hlt : it + 1 < v.base.length := Nat.lt_of_le_of_ne hit hend
      have hx := List.getElem?_eq_getElem hit
      have hy := List.getElem?_eq_getElem hlt
      have hkeeps := keeps_succ hx hy
      rw [if_neg hend, deref_of_some hx, exec_bind_ok, deref_of_some hy, exec_bind_ok]
      cases htest : v.pred v.base[it] v.base[it + 1] with
      | true =>
        rw [if_pos rfl]
        exact ⟨it + 1, rfl, Nat.le_refl _, .inr ⟨hlt, hkeeps.trans htest⟩, fun k hk hkt => by omega⟩
      | false =>
        obtain ⟨t, hrun, ht⟩ := ih (it + 1) hlt (by omega)
        rw [if_neg Bool.false_ne_true]
        refine ⟨t, hrun, Nat.le_of_succ_le ht.le, ht.stands, fun k hk hkt => ?_⟩
        obtain hk | rfl := Nat.lt_or_eq_of_le hk
        · exact ht.between k hk hkt
        · exact hkeeps.trans htest

theorem prevLoop_spec (fuel it : Nat) (hit : it < v.base.length) (hfuel : it < fuel) :
    ∃ t, prevLoop v fuel it = .ok t ∧ LastBefore v.keeps (it + 1) t := by
  induction fuel generalizing it with
  | zero => omega
  | succ fuel ih =>
    rw [prevLoop]
    cases it with
    | zero => exact ⟨0, rfl, Nat.succ_pos 0, rfl, fun k hk hks => by omega⟩
    | succ it =>
      have hx := List.getElem?_eq_getElem (Nat.lt_of_succ_lt hit)
      have hy := List.getElem?_eq_getElem hit
      have hkeeps := keeps_succ hx hy
      rw [if_neg (Nat.succ_ne_zero it), stepBack_succ, exec_bind_ok, deref_of_some hx,
        exec_bind_ok, deref_of_some hy, exec_bind_ok]
      cases htest : v.pred v.base[it] v.base[it + 1] with
      | true =>
        rw [if_pos rfl]
        exact ⟨it + 1, rfl, Nat.lt_succ_self _, hkeeps.trans htest, fun k hk hks => by omega⟩
      | false =>
        obtain ⟨t, hrun, ht⟩ := ih it (Nat.lt_of_succ_lt hit) (by omega)
        rw [if_neg Bool.false_ne_true]
        refine ⟨t, hrun, Nat.lt_succ_of_lt ht.lt, ht.keeps, fun k htk hk => ?_⟩
        obtain hk | rfl := Nat.lt_succ_iff_lt_or_eq.mp hk
        · exact ht.between k htk hk
        · exact hkeeps.trans htest

theorem relatedFrom_concat (pred : α → α → Bool) (x : α) (l : List α) (y : α) :
    relatedFrom pred x (l ++ [y]) =
      relatedFrom pred x l ++ if pred (l.getLastD x) y then [y] else [] := by
  induction l generalizing x with
  | nil => rfl
  | cons z l ih =>
    rw [List.cons_append, relatedFrom, relatedFrom, ih z, List.getLastD_cons]
    split <;> rfl

/-- The last of the first `k` elements behind `x`, or `x`. -/
theorem getLastD_take {x : α} {l : List α} {k : Nat} (hk : k ≤ l.length) :
    (x :: l)[k]? = some ((l.take k).getLastD x) := by
  cases k with
  | zero => rfl
  | succ k =>
    rw [List.take_succ_eq_append_getElem hk, List.getLastD_concat, List.getElem?_cons_succ,
      List.getElem?_eq_getElem hk]

theorem related_take_succ {s : Nat} (hs : s < v.base.length) :
    related v.pred (v.base.take (s + 1)) =
      related v.pred (v.base.take s) ++ if v.keeps s then [v.base[s]] else [] := by
  obtain ⟨base, pred⟩ := v
  dsimp only at hs ⊢
  cases base with
  | nil => cases hs
  | cons x l =>
    cases s with
    | zero => rfl
    | succ k =>
      have hk : k < l.length := Nat.lt_of_succ_lt_succ hs
      have hkeeps := keeps_succ (v := ⟨x :: l, pred⟩) (getLastD_take (Nat.le_of_lt hk))
        (List.getElem?_eq_getElem hs)
      rw [hkeeps, List.take_succ_cons, List.take_succ_cons, List.take_succ_eq_append_getElem hk,
        related, related, relatedFrom_concat]
      rfl

/-- Forward traversal compares neighbours. -/
theorem keptAt_eq (v : AdjacentFilterView α) : keptAt v.keeps v.base = related v.pred v.base := by
  have hprefix : ∀ s ≤ v.base.length,
      keptBefore v.keeps v.base s = related v.pred (v.base.take s) := by
    intro s hs
    induction s with
    | zero => rfl
    | succ s ih => rw [keptBefore_succ v.keeps hs, ih (Nat.le_of_lt hs), related_take_succ hs]
  rw [keptAt, hprefix _ (Nat.le_refl _), List.take_length]

theorem bothWays_adjacentFilter (v : AdjacentFilterView α) :
    (loop v).BothWays (prev v) (related v.pred v.base) v.base.length := by
  have hfirst : FirstFrom v.keeps v.base 0 0 := by
    refine ⟨Nat.le_refl 0, ?_, fun k hk hkt => by omega⟩
    by_cases hempty : v.base.length = 0
    · exact .inl hempty.symm
    · exact .inr ⟨Nat.pos_of_ne_zero hempty, rfl⟩
  rw [← keptAt_eq]
  refine bothWays rfl hfirst (fun s hs => ?_) (fun _ => rfl) rfl fun s hlt hs => ?_
  · obtain ⟨t, hrun, ht⟩ := nextLoop_spec v.base.length s hs (by omega)
    exact ⟨t, (if_neg (Nat.ne_of_lt hs)).trans hrun, ht⟩
  · obtain ⟨s, rfl⟩ : ∃ n, s = n + 1 := ⟨s - 1, by omega⟩
    obtain ⟨t, hrun, ht⟩ := prevLoop_spec v.base.length s hs hs
    exact ⟨t, by rw [prev, if_neg (Nat.succ_ne_zero s), stepBack_succ, exec_bind_ok, hrun], ht⟩

/-- Over one base, `remove_if_view`, whatever it has memoised, and this view deliver the same
elements in both directions, and neither goes back beyond the first of them. -/
theorem filters_bothWays (base : List α) (pred : α → Bool) (rel : α → α → Bool) (t : RangeTraits)
    (ht : t.bidirectional = true) (cache : Option Nat)
    (hcache : RemoveIfView.Cached ⟨base, pred⟩ t cache) :
    (∃ cache' first, RemoveIfView.cacheBegin ⟨base, pred⟩ cache = .ok (cache', first) ∧
      RemoveIfView.endCursor ⟨base, pred⟩ t cache = .ok (cache', base.length) ∧
      (RemoveIfView.loop ⟨base, pred⟩ cache).BothWays (RemoveIfView.prev ⟨base, pred⟩ cache')
        (base.filter fun x => !pred x) base.length) ∧
    (loop ⟨base, rel⟩).BothWays (prev ⟨base, rel⟩) (related rel base) base.length :=
  ⟨RemoveIfView.bothWays_removeIf ht hcache, bothWays_adjacentFilter ⟨base, rel⟩⟩

/-- Runs of dropped elements at the front and at the back. -/
theorem filters_bothWays_runs :
    (∃ cache' first, RemoveIfView.cacheBegin ⟨[0, 2, 5, 4, 7, 6], (· % 2 == 0)⟩ none =
        .ok (cache', first) ∧
      RemoveIfView.endCursor ⟨[0, 2, 5, 4, 7, 6], (· % 2 == 0)⟩ .ofList none = .ok (cache', 6) ∧
      (RemoveIfView.loop ⟨[0, 2, 5, 4, 7, 6], (· % 2 == 0)⟩ none).BothWays
        (RemoveIfView.prev ⟨[0, 2, 5, 4, 7, 6], (· % 2 == 0)⟩ cache') [5, 7] 6) ∧
    (loop ⟨[0, 2, 5, 4, 7, 6], fun x y => decide (x < y)⟩).BothWays
      (prev ⟨[0, 2, 5, 4, 7, 6], fun x y => decide (x < y)⟩) [0, 2, 5, 7] 6 :=
  filters_bothWays [0, 2, 5, 4, 7, 6] (· % 2 == 0) (fun x y => decide (x < y)) .ofList rfl none
    .fresh

end AdjacentFilterView

end EARanges.View
