import EARanges.Support.InPlace
import EARanges.Support.Neighbours
import EARanges.Support.StableOrder

/-!
# `adjacent_remove_if`

algorithm/adjacent_remove_if.hpp with `adjacent_find` (EASTL/algorithm.h). What is kept
moves to the front. The comparisons look at two elements behind the gap that opens there,
so it does not matter what a move leaves behind.
-/
namespace EARanges.Algorithm
open EARanges.Support

variable {α κ : Type}

/-- `*first = iter_move(i)`, which leaves `husk` of the element behind. -/
def assignMoved (husk : α → α) (l : List α) (first i : Nat) : Exec (List α) := do
  let x ← deref l i
  let l ← assign l i (husk x)
  assign l first x

section
variable (pred : κ → κ → Bool) (proj : α → κ)

def adjacentFindLoop (l : List α) : Nat → Nat → Exec Nat
  | 0, _ => .error .fuel
  | fuel + 1, first => do
    let inext ← incr l first
    if inext = l.length then .ok inext
    else
      let x ← deref l first
      let y ← deref l inext
      if pred (proj x) (proj y) then .ok first else adjacentFindLoop l fuel inext

/-- The first iterator whose element and the next satisfy the predicate, or `last`. -/
def adjacentFind (l : List α) : Exec Nat :=
  if l.length = 0 then .ok 0 else adjacentFindLoop pred proj l l.length 0

def adjacentRemoveIfLoop (husk : α → α) :
    Nat → List α → Nat → Nat → Nat → Exec (List α × Nat)
  | 0, _, _, _, _ => .error .fuel
  | fuel + 1, l, first, i, j => do
    let j ← incr l j
    if j ≠ l.length then
      let x ← deref l i
      let y ← deref l j
      if !pred (proj x) (proj y) then
        let l ← assignMoved husk l first i
        let first ← incr l first
        let i ← incr l i
        adjacentRemoveIfLoop husk fuel l first i j
      else
        let i ← incr l i
        adjacentRemoveIfLoop husk fuel l first i j
    else
      let l ← assignMoved husk l first i
      let first ← incr l first
      .ok (l, first)

def adjacentRemoveIf (husk : α → α) (l : List α) : Exec (List α × Nat) := do
  let first ← adjacentFind pred proj l
  if first = l.length then .ok (l, first)
  else
    let i ← incr l first
    adjacentRemoveIfLoop pred proj husk l.length l first i i

end

theorem adjacentFindLoop_last (pred : κ → κ → Bool) (proj : α → κ) (a : List α) (x : α)
    (fuel : Nat) :
    adjacentFindLoop pred proj (a ++ [x]) (fuel + 1) a.length = .ok (a.length + 1) := by
  rw [adjacentFindLoop, incr_ok (by simp), exec_bind_ok, if_pos (by simp)]

theorem adjacentFindLoop_turn (pred : κ → κ → Bool) (proj : α → κ) (a : List α) (x y : α)
    (rest : List α) (fuel : Nat) :
    adjacentFindLoop pred proj (a ++ x :: y :: rest) (fuel + 1) a.length =
      if pred (proj x) (proj y) then .ok a.length
      else adjacentFindLoop pred proj ((a ++ [x]) ++ y :: rest) fuel (a ++ [x]).length := by
  have hnext : a.length + 1 = (a ++ [x]).length := by simp
  have hsplit : a ++ x :: y :: rest = (a ++ [x]) ++ y :: rest := by simp
  rw [adjacentFindLoop, incr_ok (by simp), exec_bind_ok, if_neg (by simp), deref_append,
    exec_bind_ok, hsplit, hnext, deref_append, exec_bind_ok]

/-- Everything in front of what `adjacent_find` returns is kept, and the element there is
the first that is not. -/
theorem adjacentFindLoop_spec (pred : κ → κ → Bool) (proj : α → κ) (rest : List α) (a : List α)
    (x : α) (fuel : Nat)
    (hfuel : rest.length < fuel) :
    ∃ b c, x :: rest = b ++ c ∧
      adjacentFindLoop pred proj (a ++ x :: rest) fuel a.length = .ok (a ++ b).length ∧
      keptByNext (projected pred proj) (x :: rest) =
        b ++ keptByNext (projected pred proj) c ∧
      (c = [] ∨ ∃ y z d, c = y :: z :: d ∧ projected pred proj y z = true) := by
  induction rest generalizing a x fuel with
  | nil =>
    obtain ⟨fuel, rfl⟩ : ∃ n, fuel = n + 1 := ⟨fuel - 1, by omega⟩
    refine ⟨[x], [], rfl, ?_, rfl, .inl rfl⟩
    rw [adjacentFindLoop_last, List.length_append]
    rfl
  | cons y rest ih =>
    obtain ⟨fuel, rfl⟩ : ∃ n, fuel = n + 1 := ⟨fuel - 1, by omega⟩
    rw [adjacentFindLoop_turn]
    cases htest : pred (proj x) (proj y) with
    | true =>
      rw [if_pos rfl]
      exact ⟨[], x :: y :: rest, rfl, by rw [List.append_nil], rfl,
        .inr ⟨x, y, rest, rfl, htest⟩⟩
    | false =>
      rw [if_neg Bool.false_ne_true]
      obtain ⟨b, c, hbc, hrun, hkept, hc⟩ := ih (a ++ [x]) y fuel (Nat.lt_of_succ_lt_succ hfuel)
      refine ⟨x :: b, c, by rw [hbc, List.cons_append], ?_, ?_, hc⟩
      · rw [hrun, List.append_assoc, List.singleton_append]
      · rw [keptByNext, projected, htest, if_neg Bool.false_ne_true, hkept, List.cons_append]

theorem adjacentFind_spec (pred : κ → κ → Bool) (proj : α → κ) (l : List α) :
    ∃ b c, l = b ++ c ∧ adjacentFind pred proj l = .ok b.length ∧
      keptByNext (projected pred proj) l = b ++ keptByNext (projected pred proj) c ∧
      (c = [] ∨ ∃ y z d, c = y :: z :: d ∧ projected pred proj y z = true) := by
  cases l with
  | nil => exact ⟨[], [], rfl, rfl, rfl, .inl rfl⟩
  | cons x rest =>
    obtain ⟨b, c, hbc, hrun, hkept, hc⟩ :=
      adjacentFindLoop_spec pred proj rest [] x (x :: rest).length (by simp)
    refine ⟨b, c, hbc, ?_, hkept, hc⟩
    rw [adjacentFind, if_neg (by simp)]
    exact hrun

theorem deref_of_drop {l rest : List α} {i : Nat} {x : α} (h : l.drop i = x :: rest) :
    i < l.length ∧ deref l i = .ok x ∧ l.drop (i + 1) = rest := by
  have hx : l[i]? = some x := by
    rw [← List.head?_drop, h]
    rfl
  refine ⟨(List.getElem?_eq_some_iff.mp hx).1, deref_of_some hx, ?_⟩
  rw [← List.drop_drop, h]
  rfl

/-- A move over the gap: what lies behind it stays, and one more element is in front. -/
theorem assignMoved_spec (husk : α → α) {l : List α} {first i : Nat} {x : α}
    (hx : deref l i = .ok x) (hgap : first < i) (hi : i < l.length) :
    ∃ l', assignMoved husk l first i = .ok l' ∧ l'.length = l.length ∧
      l'.take (first + 1) = l.take first ++ [x] ∧ l'.drop (i + 1) = l.drop (i + 1) := by
  have hfirst : first < (l.set i (husk x)).length := by
    rw [List.length_set]
    omega
  refine ⟨(l.set i (husk x)).set first x, ?_, by rw [List.length_set, List.length_set], ?_, ?_⟩
  · rw [assignMoved, hx, exec_bind_ok, assign_eq hi, exec_bind_ok, assign_eq hfirst]
  · rw [List.take_add_one, List.take_set_of_le (Nat.le_refl _),
      List.take_set_of_le (Nat.le_of_lt hgap), List.getElem?_set_self hfirst]
    rfl
  · rw [List.drop_set_of_lt (by omega), List.drop_set_of_lt (Nat.lt_succ_self i)]

/-- What is kept of the elements from `i` on is added to the front. The gap between `first`
and `i` is never empty, so no element is overwritten before it has been looked at. -/
theorem adjacentRemoveIfLoop_spec (pred : κ → κ → Bool) (proj : α → κ) (husk : α → α)
    (rest l : List α) (x : α) (first i fuel : Nat) (hgap : first < i)
    (hrest : l.drop i = x :: rest) (hfuel : rest.length < fuel) :
    ∃ out, adjacentRemoveIfLoop pred proj husk fuel l first i i =
        .ok (out, first + (keptByNext (projected pred proj) (x :: rest)).length) ∧
      out.length = l.length ∧
      out.take (first + (keptByNext (projected pred proj) (x :: rest)).length) =
        l.take first ++ keptByNext (projected pred proj) (x :: rest) := by
  induction rest generalizing l x first i fuel with
  | nil =>
    obtain ⟨fuel, rfl⟩ : ∃ n, fuel = n + 1 := ⟨fuel - 1, by omega⟩
    obtain ⟨hi, hx, hlast⟩ := deref_of_drop hrest
    have hend : i + 1 = l.length := by
      have := List.drop_eq_nil_iff.mp hlast
      omega
    obtain ⟨l', hmove, hlen, hfront, -⟩ := assignMoved_spec husk hx hgap hi
    rw [adjacentRemoveIfLoop, incr_ok hi, exec_bind_ok, if_neg (by simp [hend]), hmove,
      exec_bind_ok, incr_ok (by omega), exec_bind_ok]
    exact ⟨l', rfl, hlen, hfront⟩
  | cons y rest ih =>
    obtain ⟨fuel, rfl⟩ : ∃ n, fuel = n + 1 := ⟨fuel - 1, by omega⟩
    have hfuel' : rest.length < fuel := Nat.lt_of_succ_lt_succ hfuel
    obtain ⟨hi, hx, hdrop⟩ := deref_of_drop hrest
    obtain ⟨hj, hy, -⟩ := deref_of_drop hdrop
    rw [adjacentRemoveIfLoop, incr_ok hi, exec_bind_ok, if_pos (by omega), hx, exec_bind_ok, hy,
      exec_bind_ok]
    cases htest : pred (proj x) (proj y) with
    | false =>
      have hkept : keptByNext (projected pred proj) (x :: y :: rest) =
          x :: keptByNext (projected pred proj) (y :: rest) := by
        rw [keptByNext, projected, htest, if_neg Bool.false_ne_true]
      obtain ⟨l', hmove, hlen, hfront, hback⟩ := assignMoved_spec husk hx hgap hi
      obtain ⟨out, hrun, hout, htake⟩ := ih l' y (first + 1) (i + 1) fuel (by omega)
        (hback.trans hdrop) hfuel'
      have hcount : first + 1 + (keptByNext (projected pred proj) (y :: rest)).length =
          first + (x :: keptByNext (projected pred proj) (y :: rest)).length := by
        rw [List.length_cons]
        omega
      rw [hcount] at hrun htake
      rw [if_pos (by rfl), hmove, exec_bind_ok, incr_ok (by omega), exec_bind_ok,
        incr_ok (by omega), exec_bind_ok, hkept]
      refine ⟨out, hrun, hout.trans hlen, ?_⟩
      rw [htake, hfront, List.append_assoc, List.singleton_append]
    | true =>
      have hkept : keptByNext (projected pred proj) (x :: y :: rest) =
          keptByNext (projected pred proj) (y :: rest) := by
        rw [keptByNext, projected, htest, if_pos rfl]
      rw [if_neg (by simp), exec_bind_ok, hkept]
      exact ih l y first (i + 1) fuel (by omega) hdrop hfuel'

/-- The elements kept end up in front, and the iterator behind them is returned. -/
theorem adjacentRemoveIf_spec (pred : κ → κ → Bool) (proj : α → κ) (husk : α → α) (l : List α) :
    ∃ out, adjacentRemoveIf pred proj husk l =
        .ok (out, (keptByNext (projected pred proj) l).length) ∧
      out.length = l.length ∧
      out.take (keptByNext (projected pred proj) l).length =
        keptByNext (projected pred proj) l := by
  obtain ⟨b, c, hbc, hfind, hkept, rfl | ⟨y, z, d, rfl, htest⟩⟩ := adjacentFind_spec pred proj l
  · rw [List.append_nil] at hbc
    subst hbc
    have hall : keptByNext (projected pred proj) l = l := by
      rw [hkept]
      exact List.append_nil l
    refine ⟨l, ?_, rfl, by rw [hall, List.take_length]⟩
    rw [adjacentRemoveIf, hfind, exec_bind_ok, if_pos rfl, hall]
  · have hdrop : keptByNext (projected pred proj) (y :: z :: d) =
        keptByNext (projected pred proj) (z :: d) := by
      rw [keptByNext, if_pos htest]
    have hrest : l.drop (b.length + 1) = z :: d := by
      rw [hbc, ← List.drop_drop, List.drop_left]
      rfl
    have hlen : l.length = b.length + d.length + 2 := by
      rw [hbc, List.length_append, List.length_cons, List.length_cons]
      omega
    obtain ⟨out, hrun, hout, htake⟩ := adjacentRemoveIfLoop_spec pred proj husk
      d l z b.length (b.length + 1) l.length (Nat.lt_succ_self _) hrest (by omega)
    refine ⟨out, ?_, hout, ?_⟩
    · rw [adjacentRemoveIf, hfind, exec_bind_ok, if_neg (by omega), incr_ok (by omega),
        exec_bind_ok, hrun, hkept, hdrop, List.length_append]
    · rw [hkept, hdrop, List.length_append, htake, hbc, List.take_left]

end EARanges.Algorithm
