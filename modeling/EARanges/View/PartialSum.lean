import EARanges.Numeric.PartialSum
import EARanges.View.ExclusiveScan

/-!
# `partial_sum_view`

view/partial_sum.hpp, and how the scans hang together: the view delivers what the eager
`partial_sum` writes, `adjacent_difference` undoes it, and `exclusive_scan` is one element
behind. `sum_` is assigned by the constructor only if there is an element.
-/
namespace EARanges.View
open EARanges.Support EARanges.Numeric

structure PartialSumView (α : Type) where
  base : List α
  fn : α → α → α
  dflt : Option α

namespace PartialSumView

variable {α : Type}

/-- `cursor<IsConst>`; `sum` is `none` where there is no value to be read. -/
structure Cursor (α : Type) where
  current : Nat
  sum : Option α
  deriving DecidableEq, Repr

/-- `cursor(rng)`. -/
def beginCursor (v : PartialSumView α) : Exec (Cursor α) :=
  if 0 ≠ v.base.length then do
    let x ← deref v.base 0
    .ok { current := 0, sum := some x }
  else .ok { current := 0, sum := v.dflt }

def readSum (c : Cursor α) : Exec α :=
  match c.sum with
  | some s => .ok s
  | none => .error .fault

def read (v : PartialSumView α) (c : Cursor α) : Exec α :=
  if c.current = v.base.length then .error .fault else readSum c

def next (v : PartialSumView α) (c : Cursor α) : Exec (Cursor α) :=
  if c.current = v.base.length then .error .fault
  else do
    let current ← incr v.base c.current
    if current ≠ v.base.length then
      let sum ← readSum c
      let x ← deref v.base current
      .ok { current, sum := some (v.fn sum x) }
    else .ok { c with current }

def loop (v : PartialSumView α) : Loop (Cursor α) α where
  start := beginCursor v
  atEnd c := .ok (c.current == v.base.length)
  read := read v
  next := next v

/-- The cursor `i` steps from the first: before the end it holds the sum up to its element. -/
structure At (v : PartialSumView α) (i : Nat) (c : Cursor α) : Prop where
  current : c.current = i
  le : i ≤ v.base.length
  sum : i < v.base.length → c.sum = (sums v.fn v.base)[i]?

theorem At.begin (v : PartialSumView α) : ∃ c, beginCursor v = .ok c ∧ At v 0 c := by
  unfold beginCursor
  cases hbase : v.base with
  | nil => exact ⟨⟨0, v.dflt⟩, rfl, rfl, Nat.zero_le _, fun hlt => by simp [hbase] at hlt⟩
  | cons x l =>
    refine ⟨⟨0, some x⟩, rfl, rfl, Nat.zero_le _, fun _ => ?_⟩
    rw [hbase, getElem?_sums (Nat.zero_le _)]
    rfl

theorem At.read {v : PartialSumView α} {i : Nat} {c : Cursor α} (h : At v i c) {x : α}
    (hx : (sums v.fn v.base)[i]? = some x) : v.read c = .ok x := by
  have hi := (List.getElem?_eq_some_iff.mp hx).1
  rw [length_sums] at hi
  rw [PartialSumView.read, if_neg (by rw [h.current]; omega), readSum, h.sum hi, hx]

theorem At.next {v : PartialSumView α} {i : Nat} {c : Cursor α} (h : At v i c)
    (hi : i < v.base.length) : ∃ c', v.next c = .ok c' ∧ At v (i + 1) c' := by
  rw [PartialSumView.next, h.current, if_neg (Nat.ne_of_lt hi), incr_ok hi, exec_bind_ok]
  by_cases hlast : i + 1 = v.base.length
  · rw [if_neg (not_not.mpr hlast)]
    exact ⟨_, rfl, rfl, hi, fun hlt => absurd hlt (by omega)⟩
  · have hin : i + 1 < v.base.length := by omega
    obtain ⟨s, hs⟩ : ∃ s, (sums v.fn v.base)[i]? = some s :=
      ⟨_, List.getElem?_eq_getElem (by rw [length_sums]; exact hi)⟩
    have hx := List.getElem?_eq_getElem hin
    rw [if_pos hlast, readSum, h.sum hi, hs, exec_bind_ok, deref_of_some hx, exec_bind_ok]
    exact ⟨_, rfl, rfl, hi, fun _ => (sums_succ hs hx).symm⟩

/-- The view delivers the running sums. -/
theorem delivers_sums (v : PartialSumView α) : v.loop.Delivers (sums v.fn v.base) := by
  suffices hnumbers : v.loop.Numbers (sums v.fn v.base) (At v) from hnumbers.delivers
  refine { start := At.begin v, next := ?_, atEnd := ?_, read := ?_ }
  · intro i c h hi
    rw [length_sums] at hi
    exact h.next hi
  · intro i c h
    obtain rfl := h.current
    rw [length_sums]
    rfl
  · exact fun i c x h hx => h.read hx

end PartialSumView

/-! ## The scans together -/

/-- What `run` has written, `undo` turns back into the elements that `run` has read, as many as
there is room for. -/
def Undoes {G : Type} (undo run : List G → List G → Exec (InOutResult G)) : Prop :=
  ∀ l cells cells', ∃ r r', run l cells = .ok r ∧ r.out = min l.length cells.length ∧
    undo r.written cells' = .ok r' ∧ Wrote cells' l (min r.out cells'.length) r'

structure ScanLaws (G : Type) [AddCommGroup G] (α τ : Type) : Prop where
  difference_undoes : Undoes (adjacentDifference (fun a b : G => a - b) id)
    (partialSum (fun a b => a + b) id)
  sum_undoes : Undoes (partialSum (fun a b : G => a + b) id)
    (adjacentDifference (fun a b => a - b) id)
  /-- the view and the eager function, for every operation -/
  eager : ∀ (v : PartialSumView α) (cells : List α), ∃ r xs, v.loop.Delivers xs ∧
    xs.length = v.base.length ∧ partialSum v.fn id v.base cells = .ok r ∧
    Wrote cells xs (min v.base.length cells.length) r
  exclusive : ∀ (k : Bool) (v : ExclusiveScanView α τ), ∃ xs,
    (v.loop : Loop (ScanAdaptor k τ) τ).Delivers xs ∧ xs.length = v.rng.length ∧
      ∀ i < v.rng.length, xs[i]? = some ((v.rng.take i).foldl v.fn v.init)
  /-- `init` is an identity element -/
  behind : ∀ (k : Bool) (v : PartialSumView α) (e : ExclusiveScanView α α), e.rng = v.base →
    e.fn = v.fn → (∀ x, v.fn e.init x = x) →
    ∃ xs ys, (e.loop : Loop (ScanAdaptor k α) α).Delivers xs ∧ v.loop.Delivers ys ∧
      ∀ i, i + 1 < v.base.length → xs[i + 1]? = ys[i]?

theorem undoes_of_inverse {G : Type} {run undo : List G → List G → Exec (InOutResult G)}
    {values back : List G → List G}
    (hrun : ∀ l cells, ∃ r, run l cells = .ok r ∧
      Wrote cells (values l) (min l.length cells.length) r)
    (hundo : ∀ l cells, ∃ r, undo l cells = .ok r ∧
      Wrote cells (back l) (min l.length cells.length) r)
    (hlength : ∀ l, (values l).length = l.length)
    (htake : ∀ l n, (values l).take n = values (l.take n))
    (hinverse : ∀ l, back (values l) = l) : Undoes undo run := by
  intro l cells cells'
  obtain ⟨r, hr, hwrote⟩ := hrun l cells
  obtain ⟨r', hr', hwrote'⟩ := hundo r.written cells'
  refine ⟨r, r', hr, hwrote.out, hr', ?_⟩
  have hback : back r.written = l.take r.out := by
    rw [hwrote.written, htake, hinverse, hwrote.out]
  have hlen : r.written.length = r.out := by
    rw [hwrote.written, htake, hlength, List.length_take, hwrote.out]
    omega
  have hle : min r.out cells'.length ≤ r.out := Nat.min_le_left _ _
  rw [hback, hlen] at hwrote'
  refine ⟨hwrote'.in_, hwrote'.out, ?_, hwrote'.rest⟩
  rw [hwrote'.written, List.take_take, Nat.min_eq_left hle]

theorem partialSum_id {α : Type} (f : α → α → α) (l cells : List α) :
    ∃ r, partialSum f id l cells = .ok r ∧
      Wrote cells (sums f l) (min l.length cells.length) r := by
  have hwrote := partialSum_wrote f id l cells
  rwa [List.map_id] at hwrote

theorem adjacentDifference_id {α : Type} (f : α → α → α) (l cells : List α) :
    ∃ r, adjacentDifference f id l cells = .ok r ∧
      Wrote cells (diffs f l) (min l.length cells.length) r := by
  have hwrote := adjacentDifference_wrote f id l cells
  rwa [List.map_id] at hwrote

/-- With an identity element in front the accumulations are one behind the sums. -/
theorem foldl_take_succ {α : Type} {f : α → α → α} {e : α} (he : ∀ x, f e x = x) (l : List α)
    {i : Nat} (hi : i < l.length) : some ((l.take (i + 1)).foldl f e) = (sums f l)[i]? := by
  cases l with
  | nil => cases hi
  | cons x l =>
    rw [getElem?_sums (Nat.le_of_lt_succ hi), List.take_succ_cons, List.foldl_cons, he]

theorem scanLaws (G : Type) [AddCommGroup G] (α τ : Type) : ScanLaws G α τ where
  difference_undoes := undoes_of_inverse (partialSum_id _) (adjacentDifference_id _) length_sums
    take_sums diffs_sums
  sum_undoes := undoes_of_inverse (adjacentDifference_id _) (partialSum_id _) length_diffs
    take_diffs sums_diffs
  eager v cells := by
    obtain ⟨r, hr, hwrote⟩ := partialSum_id v.fn v.base cells
    exact ⟨r, _, v.delivers_sums, length_sums v.base, hr, hwrote⟩
  exclusive k v := ⟨_, v.delivers_accumulations, v.length_accumulations,
    fun i hi => ExclusiveScanView.getElem?_accumulations hi⟩
  behind k v e hrng hfn he := by
    refine ⟨_, _, e.delivers_accumulations, v.delivers_sums, fun i hi => ?_⟩
    rw [ExclusiveScanView.getElem?_accumulations (by rw [hrng]; exact hi), hrng, hfn]
    exact foldl_take_succ he v.base (Nat.lt_of_succ_lt hi)

end EARanges.View
