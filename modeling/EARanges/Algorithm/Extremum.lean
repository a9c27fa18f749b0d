import EARanges.Algorithm.MinMax
import EARanges.Algorithm.SelectionSort
import EARanges.Support.Lexicographic

/-!
# The overloads of `min`, `max` and `minmax`

algorithm/min.hpp, max.hpp, minmax.hpp and max_element.hpp, with the `max_element` of EASTL it
calls. The loops replace the element kept when the next one is strictly better, so of equivalent
elements the first stays. Of two equivalent arguments `min(a, b)` returns the first and
`max(a, b)` the second.
-/
namespace EARanges.Algorithm
open EARanges.Support

variable {α κ : Type}

section
variable (better : α → α → Bool) (l : List α)

/-- `while(++first != last)` of `min` and `max`; `better` compares `tmp` with `result`. -/
def extremumLoop : Nat → Nat → α → Exec α
  | 0, _, _ => .error .fuel
  | fuel + 1, first, result => do
    let first ← incr l first
    if first = l.length then .ok result
    else
      let tmp ← deref l first
      extremumLoop fuel first (if better tmp result then tmp else result)

/-- The range must not be empty. -/
def extremum : Exec α :=
  if l.length = 0 then .error .fault
  else do
    let result ← deref l 0
    extremumLoop better l l.length 0 result

end

section
variable (pred : κ → κ → Bool) (proj : α → κ)

/-- `min(a, b)`. -/
def minOfTwo (a b : α) : α := if pred (proj b) (proj a) then b else a

/-- `max(a, b)`. -/
def maxOfTwo (a b : α) : α := if pred (proj b) (proj a) then a else b

/-- `minmax(a, b)`. -/
def minmaxOfTwo (a b : α) : MinMaxResult α :=
  if pred (proj b) (proj a) then ⟨b, a⟩ else ⟨a, b⟩

/-- `min(rng)`, and `min` of an initializer list, which hands on to it. -/
def minOfRange (l : List α) : Exec α :=
  extremum (fun tmp result => pred (proj tmp) (proj result)) l

/-- `max(rng)`, and `max` of an initializer list. -/
def maxOfRange (l : List α) : Exec α :=
  extremum (fun tmp result => pred (proj result) (proj tmp)) l

/-- `max_element`: `min_element` with the arguments of the comparison exchanged. -/
def maxElement (l : List α) (first : Nat) : Exec Nat := minElement (reversed pred) proj l first

end

variable {pred : κ → κ → Bool} {proj : α → κ} {l : List α}

/-! ## Who holds the place at the end -/

theorem extremumLoop_eq {better : α → α → Bool} {fuel first : Nat} {m : α}
    (hfirst : first < l.length) (hfuel : l.length ≤ first + fuel) :
    extremumLoop better l fuel first m = .ok (held better m (l.drop (first + 1))) := by
  induction fuel generalizing first m with
  | zero => omega
  | succ fuel ih =>
    rw [extremumLoop, incr_ok hfirst, exec_bind_ok]
    by_cases hend : first + 1 = l.length
    · rw [if_pos hend, List.drop_of_length_le (Nat.le_of_eq hend.symm)]
      rfl
    · have hlt : first + 1 < l.length := by omega
      rw [if_neg hend, deref_eq hlt, exec_bind_ok, ih hlt (by omega),
        List.drop_eq_getElem_cons hlt, held_cons]

theorem extremum_cons (better : α → α → Bool) (x : α) (xs : List α) :
    extremum better (x :: xs) = .ok (held better x xs) := by
  rw [extremum, if_neg (by simp), deref_of_some rfl, exec_bind_ok,
    extremumLoop_eq (by simp) (Nat.le_add_left _ _)]
  rfl

/-- The iterators keep it as the values do. -/
theorem minElementLoop_chosen (hlt : StrictWeakOrder pred) {fuel first current : Nat} {m : α}
    (hfirst : first < l.length) (hfuel : l.length ≤ first + fuel)
    (h : Chosen (projected pred proj) l (first + 1) current m) :
    ∃ j, minElementLoop pred proj l fuel first current = .ok j ∧
      Chosen (projected pred proj) l l.length j
        (held (projected pred proj) m (l.drop (first + 1))) := by
  induction fuel generalizing first current m with
  | zero => omega
  | succ fuel ih =>
    rw [minElementLoop, incr_ok hfirst, exec_bind_ok]
    by_cases hend : first + 1 = l.length
    · rw [if_pos hend, List.drop_of_length_le (Nat.le_of_eq hend.symm)]
      rw [hend] at h
      exact ⟨current, rfl, h⟩
    · have hin : first + 1 < l.length := by omega
      have hget := List.getElem?_eq_getElem hin
      have hturn := h.turn (hlt.projected proj).replacing_lt hget
      rw [if_neg hend, lessAt_eq hget h.get, exec_bind_ok, List.drop_eq_getElem_cons hin, held_cons]
      cases hless : projected pred proj l[first + 1] m with
      | true =>
        rw [hless] at hturn
        exact ih hin (by omega) hturn
      | false =>
        rw [hless] at hturn
        exact ih hin (by omega) hturn

theorem minElement_chosen (hlt : StrictWeakOrder pred) (proj : α → κ) (x : α) (xs : List α) :
    ∃ j, minElement pred proj (x :: xs) 0 = .ok j ∧
      Chosen (projected pred proj) (x :: xs) (x :: xs).length j
        (held (projected pred proj) x xs) := by
  rw [minElement, if_pos (by simp)]
  exact minElementLoop_chosen hlt (Nat.succ_pos _) (by omega) (chosen_first rfl)

/-- The fold of `max(a, b)` lets equivalent elements replace each other. -/
theorem foldl_maxOfTwo (pred : κ → κ → Bool) (proj : α → κ) (x : α) (xs : List α) :
    xs.foldl (maxOfTwo pred proj) x = held (fun b a => !projected pred proj b a) x xs := by
  unfold held
  congr 1
  funext m y
  cases hless : pred (proj y) (proj m) <;> simp [maxOfTwo, projected, hless]

theorem minmax_pair (pred : κ → κ → Bool) (proj : α → κ) (a b : α) :
    minmax pred proj [a, b] = .ok (minmaxOfTwo pred proj a b) := by
  cases hless : pred (proj b) (proj a) <;>
    simp [minmax, minmaxLoop, minmaxOfTwo, deref, incr, hless]

/-! ## Agreement -/

/-- The element at the position is the value. -/
def PointsTo (l : List α) (position : Exec Nat) (value : Exec α) (P : Nat → Prop) : Prop :=
  ∃ i x, position = .ok i ∧ value = .ok x ∧ l[i]? = some x ∧ P i

/-- The overloads agree on `l`, also on equivalent elements: those for ranges fold those for two
arguments and return what the iterators point to. -/
structure OverloadsAgree (pred : κ → κ → Bool) (proj : α → κ) (l : List α) : Prop where
  min_fold : ∀ x xs, l = x :: xs → minOfRange pred proj l = .ok (xs.foldl (minOfTwo pred proj) x)
  max_fold : ∀ x xs, l = x :: xs → maxOfRange pred proj l = .ok (xs.foldl (maxOfTwo pred proj) x)
  minmax_two : ∀ a b, minmax pred proj [a, b] = .ok (minmaxOfTwo pred proj a b)
  min_element : PointsTo l (minElement pred proj l 0) (minOfRange pred proj l)
    (FirstMinimal (projected pred proj) l)
  max_element : PointsTo l (maxElement pred proj l 0) (maxOfRange pred proj l)
    (FirstMinimal (reversed (projected pred proj)) l)

/-- The first and the last of the maximal elements are one element. -/
def SameMaximum (lt : α → α → Bool) (l : List α) : Prop :=
  ∀ i j, FirstMinimal (reversed lt) l i → LastMaximal lt l j → l[i]? = l[j]?

/-- Only `max(a, b)` disagrees, where the last maximal element is not the first. -/
theorem overloadsAgree_iff (hlt : StrictWeakOrder pred) (proj : α → κ) (hl : l ≠ []) :
    OverloadsAgree pred proj l ↔ SameMaximum (projected pred proj) l := by
  obtain ⟨x, xs, rfl⟩ := List.exists_cons_of_ne_nil hl
  have hord := hlt.projected proj
  -- the first maximal element, kept by the range overload
  obtain ⟨i, helement, hfirst⟩ := minElement_chosen hlt.reversed proj x xs
  have hmax : maxOfRange pred proj (x :: xs) =
      .ok (held (reversed (projected pred proj)) x xs) := extremum_cons _ x xs
  -- the last one, kept by the fold
  obtain ⟨j, hlast⟩ := (chosen_first (l := x :: xs) rfl).held hord.replacing_not_lt
    (Nat.succ_pos _)
  have hfold := foldl_maxOfTwo pred proj x xs
  constructor
  · intro hagree i' j' hi' hj'
    obtain rfl := FirstMinimal.unique (hfirst.firstMinimal hord.reversed) hi'
    obtain rfl := LastMaximal.unique (hlast.lastMaximal hord) hj'
    have heq := hagree.max_fold x xs rfl
    rw [hmax, Except.ok.injEq, hfold] at heq
    rw [hlast.get]
    exact hfirst.get.trans (congrArg some heq)
  · intro hsame
    have heq := hsame i j (hfirst.firstMinimal hord.reversed) (hlast.lastMaximal hord)
    rw [hlast.get] at heq
    constructor
    · intro y ys h
      obtain ⟨rfl, rfl⟩ := List.cons.inj h
      exact extremum_cons _ x xs
    · intro y ys h
      obtain ⟨rfl, rfl⟩ := List.cons.inj h
      rw [hmax, hfold]
      exact congrArg Except.ok (Option.some.inj (hfirst.get.symm.trans heq))
    · exact minmax_pair pred proj
    · obtain ⟨k, hrun, hk⟩ := minElement_chosen hlt proj x xs
      exact ⟨k, _, hrun, extremum_cons _ x xs, hk.get, hk.firstMinimal hord⟩
    · exact ⟨i, _, helement, hmax, hfirst.get, hfirst.firstMinimal hord.reversed⟩

theorem overloadsAgree_iff_pairs :
    OverloadsAgree (fun a b : Nat => decide (a < b)) Prod.fst [(2, 'a'), (1, 'b'), (3, 'c')] ↔
      SameMaximum (projected (fun a b : Nat => decide (a < b)) Prod.fst)
        [(2, 'a'), (1, 'b'), (3, 'c')] :=
  overloadsAgree_iff (.of_linearOrder Nat) Prod.fst (by decide)

/-- `max({a, b})` returns the first of two equivalent elements, `max(a, b)` the second. -/
theorem overloads_disagree :
    ¬ OverloadsAgree (fun a b : Nat => decide (a < b)) Prod.fst [(1, 'a'), (1, 'b')] := by
  intro hagree
  have hfold := hagree.max_fold (1, 'a') [(1, 'b')] rfl
  exact absurd hfold (by decide)

end EARanges.Algorithm
