import EARanges.Support.Champion
import EARanges.Support.InPlace

/-!
# `minmax_element` and `minmax`

algorithm/minmax_element.hpp and minmax.hpp. The elements behind the second are taken in
pairs: the lesser of a pair is compared with the minimum and the other with the maximum.
One function keeps iterators, the other values.
-/
namespace EARanges.Algorithm
open EARanges.Support

variable {α κ : Type}

structure MinMaxResult (ι : Type) where
  min : ι
  max : ι
  deriving DecidableEq, Repr

section
variable (pred : κ → κ → Bool) (proj : α → κ) (l : List α)

def minmaxElementLoop : Nat → Nat → MinMaxResult Nat → Exec (MinMaxResult Nat)
  | 0, _, _ => .error .fuel
  | fuel + 1, first, result => do
    let tmp ← incr l first
    if tmp = l.length then .ok result
    else
      let first ← incr l tmp
      let x ← deref l tmp
      let least ← deref l result.min
      let greatest ← deref l result.max
      if first = l.length then
        if pred (proj x) (proj least) then .ok { result with min := tmp }
        else if !pred (proj x) (proj greatest) then .ok { result with max := tmp }
        else .ok result
      else
        let y ← deref l first
        if pred (proj y) (proj x) then
          let min := if pred (proj y) (proj least) then first else result.min
          let max := if !pred (proj x) (proj greatest) then tmp else result.max
          minmaxElementLoop fuel first ⟨min, max⟩
        else
          let min := if pred (proj x) (proj least) then tmp else result.min
          let max := if !pred (proj y) (proj greatest) then first else result.max
          minmaxElementLoop fuel first ⟨min, max⟩

def minmaxElement : Exec (MinMaxResult Nat) :=
  if l.length = 0 then .ok ⟨0, 0⟩
  else do
    let first ← incr l 0
    if first = l.length then .ok ⟨0, 0⟩
    else
      let x ← deref l first
      let least ← deref l 0
      if pred (proj x) (proj least) then minmaxElementLoop pred proj l l.length first ⟨first, 0⟩
      else minmaxElementLoop pred proj l l.length first ⟨0, first⟩

def minmaxLoop : Nat → Nat → MinMaxResult α → Exec (MinMaxResult α)
  | 0, _, _ => .error .fuel
  | fuel + 1, first, result => do
    let first ← incr l first
    if first = l.length then .ok result
    else
      let tmp1 ← deref l first
      let first ← incr l first
      if first = l.length then
        if pred (proj tmp1) (proj result.min) then .ok { result with min := tmp1 }
        else if !pred (proj tmp1) (proj result.max) then .ok { result with max := tmp1 }
        else .ok result
      else
        let tmp2 ← deref l first
        if pred (proj tmp2) (proj tmp1) then
          let min := if pred (proj tmp2) (proj result.min) then tmp2 else result.min
          let max := if !pred (proj tmp1) (proj result.max) then tmp1 else result.max
          minmaxLoop fuel first ⟨min, max⟩
        else
          let min := if pred (proj tmp1) (proj result.min) then tmp1 else result.min
          let max := if !pred (proj tmp2) (proj result.max) then tmp2 else result.max
          minmaxLoop fuel first ⟨min, max⟩

/-- The range must not be empty: the first element is read. -/
def minmax : Exec (MinMaxResult α) := do
  let x ← deref l 0
  let first ← incr l 0
  if first ≠ l.length then
    let tmp ← deref l first
    if pred (proj tmp) (proj x) then minmaxLoop pred proj l l.length first ⟨tmp, x⟩
    else minmaxLoop pred proj l l.length first ⟨x, tmp⟩
  else .ok ⟨x, x⟩

end

variable {pred : κ → κ → Bool} {proj : α → κ} {l : List α}

/-- Of the first `n` elements, `r` are the positions and `v` the values of the first minimal
and the last maximal one. -/
structure Extremes (pred : κ → κ → Bool) (proj : α → κ) (l : List α) (n : Nat)
    (r : MinMaxResult Nat) (v : MinMaxResult α) : Prop where
  min : Chosen (projected pred proj) l n r.min v.min
  max : Chosen (fun b a => !projected pred proj b a) l n r.max v.max

variable {n : Nat} {r : MinMaxResult Nat} {v : MinMaxResult α} {x y : α}

theorem Extremes.ordered (hlt : StrictWeakOrder pred) (h : Extremes pred proj l n r v) :
    projected pred proj v.max v.min = false := by
  obtain hbefore | heq | hbehind := Nat.lt_trichotomy r.min r.max
  · simpa using h.max.earlier r.min v.min hbefore h.min.get
  · have hmax := h.max.get
    rw [← heq, h.min.get] at hmax
    rw [Option.some.inj hmax]
    exact (hlt.projected proj).not_self _
  · have hless := h.max.later r.min v.min hbehind h.min.lt h.min.get
    exact (hlt.projected proj).asymm (by simpa using hless)

/-- The second element goes to one of the two sides. -/
theorem extremes_second (hlt : StrictWeakOrder pred) (proj : α → κ) (hx : l[0]? = some x)
    (hy : l[1]? = some y) :
    (pred (proj y) (proj x) = true → Extremes pred proj l 2 ⟨1, 0⟩ ⟨y, x⟩) ∧
      (pred (proj y) (proj x) = false → Extremes pred proj l 2 ⟨0, 1⟩ ⟨x, y⟩) := by
  have hord := hlt.projected proj
  refine ⟨fun hless => ⟨?_, ?_⟩, fun hnot => ⟨?_, ?_⟩⟩
  · exact (chosen_first hx).replace hord.replacing_lt hy hless
  · exact (chosen_first hx).keep hy (by simpa [projected] using hless)
  · exact (chosen_first hx).keep hy hnot
  · exact (chosen_first hx).replace hord.replacing_not_lt hy (by simpa [projected] using hnot)

section
variable (hlt : StrictWeakOrder pred) (h : Extremes pred proj l n r v) (hx : l[n]? = some x)
include hlt h hx

/-- The odd element at the end. One less than the minimum is no maximum. -/
theorem Extremes.last :
    (pred (proj x) (proj v.min) = true →
        Extremes pred proj l (n + 1) ⟨n, r.max⟩ ⟨x, v.max⟩) ∧
      (pred (proj x) (proj v.min) = false → pred (proj x) (proj v.max) = false →
        Extremes pred proj l (n + 1) ⟨r.min, n⟩ ⟨v.min, x⟩) ∧
      (pred (proj x) (proj v.min) = false → pred (proj x) (proj v.max) = true →
        Extremes pred proj l (n + 1) r v) := by
  have hord := hlt.projected proj
  refine ⟨fun hmin => ⟨?_, ?_⟩, fun hmin hmax => ⟨?_, ?_⟩, fun hmin hmax => ⟨?_, ?_⟩⟩
  · exact h.min.replace hord.replacing_lt hx hmin
  · have hless : projected pred proj x v.max = true :=
      hord.lt_of_lt_of_not_lt hmin (h.ordered hlt)
    exact h.max.keep hx (by rw [hless]; rfl)
  · exact h.min.keep hx hmin
  · exact h.max.replace hord.replacing_not_lt hx (by simpa [projected] using hmax)
  · exact h.min.keep hx hmin
  · exact h.max.keep hx (by simpa [projected] using hmax)

/-- A pair whose second element is the lesser one. -/
theorem Extremes.pair_descending (hy : l[n + 1]? = some y)
    (hyx : pred (proj y) (proj x) = true) :
    Extremes pred proj l (n + 2)
      ⟨if pred (proj y) (proj v.min) then n + 1 else r.min,
        if !pred (proj x) (proj v.max) then n else r.max⟩
      ⟨if pred (proj y) (proj v.min) then y else v.min,
        if !pred (proj x) (proj v.max) then x else v.max⟩ where
  min := h.min.of_better (hlt.projected proj).replacing_lt hx hy hyx
  max := h.max.of_not_better (hlt.projected proj).replacing_not_lt hx hy
    (by simpa [projected] using hyx)

/-- A pair whose first element is not the greater one. -/
theorem Extremes.pair_ascending (hy : l[n + 1]? = some y)
    (hyx : pred (proj y) (proj x) = false) :
    Extremes pred proj l (n + 2)
      ⟨if pred (proj x) (proj v.min) then n else r.min,
        if !pred (proj y) (proj v.max) then n + 1 else r.max⟩
      ⟨if pred (proj x) (proj v.min) then x else v.min,
        if !pred (proj y) (proj v.max) then y else v.max⟩ where
  min := h.min.of_not_better (hlt.projected proj).replacing_lt hx hy hyx
  max := h.max.of_better (hlt.projected proj).replacing_not_lt hx hy
    (by simpa [projected] using hyx)

end

/-- The two loops in step. -/
theorem minmaxLoops_spec (hlt : StrictWeakOrder pred) (fuel first : Nat) (r : MinMaxResult Nat)
    (v : MinMaxResult α) (hfirst : first < l.length) (hfuel : l.length ≤ first + fuel)
    (h : Extremes pred proj l (first + 1) r v) :
    ∃ r' v', minmaxElementLoop pred proj l fuel first r = .ok r' ∧
      minmaxLoop pred proj l fuel first v = .ok v' ∧ Extremes pred proj l l.length r' v' := by
  induction fuel generalizing first r v with
  | zero => omega
  | succ fuel ih =>
    rw [minmaxElementLoop, minmaxLoop, incr_ok hfirst, exec_bind_ok, exec_bind_ok]
    by_cases hend : first + 1 = l.length
    · rw [if_pos hend, if_pos hend]
      rw [hend] at h
      exact ⟨r, v, rfl, rfl, h⟩
    · have htmp : first + 1 < l.length := by omega
      obtain ⟨x, hx⟩ : ∃ x, l[first + 1]? = some x := ⟨_, List.getElem?_eq_getElem htmp⟩
      rw [if_neg hend, if_neg hend, incr_ok htmp, exec_bind_ok, deref_of_some hx, exec_bind_ok,
        exec_bind_ok, deref_of_some h.min.get, exec_bind_ok, deref_of_some h.max.get,
        exec_bind_ok, exec_bind_ok]
      by_cases hodd : first + 1 + 1 = l.length
      · rw [if_pos hodd, if_pos hodd, ← hodd]
        obtain ⟨hless, hgreater, hneither⟩ := h.last hlt hx
        cases hmin : pred (proj x) (proj v.min) with
        | true => exact ⟨_, _, rfl, rfl, hless hmin⟩
        | false =>
          cases hmax : pred (proj x) (proj v.max) with
          | true => exact ⟨_, _, rfl, rfl, hneither hmin hmax⟩
          | false => exact ⟨_, _, rfl, rfl, hgreater hmin hmax⟩
      · have hin : first + 2 < l.length := by omega
        obtain ⟨y, hy⟩ : ∃ y, l[first + 2]? = some y := ⟨_, List.getElem?_eq_getElem hin⟩
        rw [if_neg hodd, if_neg hodd, deref_of_some hy, exec_bind_ok, exec_bind_ok]
        cases hyx : pred (proj y) (proj x) with
        | true => exact ih _ _ _ hin (by omega) (h.pair_descending hlt hx hy hyx)
        | false => exact ih _ _ _ hin (by omega) (h.pair_ascending hlt hx hy hyx)

end EARanges.Algorithm
