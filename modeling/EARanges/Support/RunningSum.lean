import Mathlib.Algebra.Group.Basic
import Mathlib.Data.List.Basic

/-!
# Values carried along a list

`outputs` carries a value along a list and puts one out for each element. Running sums and
differences of neighbours are two instances, and over an abelian group they undo each other
(`diffs_sums`, `sums_diffs`).
-/
namespace EARanges.Support

section
variable {σ α β : Type} (init : α → σ × β) (step : σ → α → σ × β)

/-- What `step` puts out along a list, the carried value being `s` before. -/
def outputs : σ → List α → List β
  | _, [] => []
  | s, x :: l => (step s x).2 :: outputs (step s x).1 l

/-- The same with a first element that starts the carried value. -/
def running : List α → List β
  | [] => []
  | x :: l => (init x).2 :: outputs step (init x).1 l

variable {init step}

theorem length_outputs (s : σ) (l : List α) : (outputs step s l).length = l.length := by
  induction l generalizing s with
  | nil => rfl
  | cons x l ih => simp [outputs, ih]

theorem length_running (l : List α) : (running init step l).length = l.length := by
  cases l with
  | nil => rfl
  | cons x l => simp [running, length_outputs]

theorem take_outputs (s : σ) (l : List α) (n : Nat) :
    (outputs step s l).take n = outputs step s (l.take n) := by
  induction l generalizing s n with
  | nil => simp [outputs]
  | cons x l ih =>
    cases n with
    | zero => rfl
    | succ n => simp [outputs, ih]

/-- What is put out depends on the elements up to there only. -/
theorem take_running (l : List α) (n : Nat) :
    (running init step l).take n = running init step (l.take n) := by
  cases l with
  | nil => simp [running]
  | cons x l =>
    cases n with
    | zero => rfl
    | succ n => simp [running, take_outputs]

end

section
variable {α β : Type} (f : β → β → β)

/-- `x₀`, `f x₀ x₁`, `f (f x₀ x₁) x₂`, …. -/
def sums : List β → List β
  | [] => []
  | x :: l => l.scanl f x

/-- `x₀`, `f x₁ x₀`, `f x₂ x₁`, …. -/
def diffs : List β → List β
  | [] => []
  | x :: l => x :: List.zipWith f l (x :: l)

variable {f}

theorem outputs_sums (proj : α → β) (t : β) (l : List α) :
    t :: outputs (fun t x => (f t (proj x), f t (proj x))) t l = (l.map proj).scanl f t := by
  induction l generalizing t with
  | nil => rfl
  | cons x l ih => simp [outputs, ih]

theorem running_sums (proj : α → β) (l : List α) :
    running (fun x => (proj x, proj x)) (fun t x => (f t (proj x), f t (proj x))) l =
      sums f (l.map proj) := by
  cases l with
  | nil => rfl
  | cons x l => exact outputs_sums proj (proj x) l

theorem outputs_diffs (proj : α → β) (t : β) (l : List α) :
    outputs (fun t x => (proj x, f (proj x) t)) t l =
      List.zipWith f (l.map proj) (t :: l.map proj) := by
  induction l generalizing t with
  | nil => rfl
  | cons x l ih => simp [outputs, ih]

theorem running_diffs (proj : α → β) (l : List α) :
    running (fun x => (proj x, proj x)) (fun t x => (proj x, f (proj x) t)) l =
      diffs f (l.map proj) := by
  cases l with
  | nil => rfl
  | cons x l => exact congrArg _ (outputs_diffs proj (proj x) l)

theorem length_sums (l : List β) : (sums f l).length = l.length := by
  rw [← l.map_id, ← running_sums id l, length_running, List.length_map]

theorem length_diffs (l : List β) : (diffs f l).length = l.length := by
  rw [← l.map_id, ← running_diffs id l, length_running, List.length_map]

theorem take_sums (l : List β) (n : Nat) : (sums f l).take n = sums f (l.take n) := by
  rw [← l.map_id, ← running_sums id l, take_running, running_sums]
  simp only [List.map_id]

theorem take_diffs (l : List β) (n : Nat) : (diffs f l).take n = diffs f (l.take n) := by
  rw [← l.map_id, ← running_diffs id l, take_running, running_diffs]
  simp only [List.map_id]

/-- A running sum is a fold. -/
theorem getElem?_sums {x : β} {l : List β} {k : Nat} (hk : k ≤ l.length) :
    (sums f (x :: l))[k]? = some ((l.take k).foldl f x) := by
  rw [sums, List.getElem?_scanl, if_pos hk]

theorem sums_succ {l : List β} {k : Nat} {s x : β} (hs : (sums f l)[k]? = some s)
    (hx : l[k + 1]? = some x) : (sums f l)[k + 1]? = some (f s x) := by
  cases l with
  | nil => cases hx
  | cons y l =>
    rw [sums] at hs ⊢
    rw [List.getElem?_cons_succ] at hx
    rw [List.getElem?_succ_scanl, hs, hx]
    rfl

end

/-! ## Over an abelian group -/

section
variable {G : Type} [AddCommGroup G]

theorem zipWith_scanl (s t : G) (l : List G) :
    List.zipWith (fun a b => a - b) (l.scanl (fun a b => a + b) t)
      (s :: l.scanl (fun a b => a + b) t) = (t - s) :: l := by
  induction l generalizing s t with
  | nil => rfl
  | cons x l ih => rw [List.scanl_cons, List.zipWith_cons_cons, ih, add_sub_cancel_left]

theorem diffs_sums (l : List G) : diffs (fun a b => a - b) (sums (fun a b => a + b) l) = l := by
  cases l with
  | nil => rfl
  | cons x l =>
    cases l with
    | nil => rfl
    | cons y l =>
      rw [sums, List.scanl_cons, diffs, zipWith_scanl, add_sub_cancel_left]

theorem sums_diffs (l : List G) : sums (fun a b => a + b) (diffs (fun a b => a - b) l) = l := by
  cases l with
  | nil => rfl
  | cons x l =>
    rw [diffs, sums]
    induction l generalizing x with
    | nil => rfl
    | cons y l ih =>
      rw [List.zipWith_cons_cons, List.scanl_cons, add_sub_cancel, ih y]

end

end EARanges.Support
