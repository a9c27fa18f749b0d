import EARanges.Algorithm.AdjacentRemoveIf
import EARanges.Algorithm.FindIf

/-!
# `remove_if`, `remove` and `transform`

algorithm/remove_if.hpp, algorithm/remove.hpp and algorithm/transform.hpp, the last with its loop
in EASTL/algorithm.h. Each reads a range and writes into the same range, at or in front of where
it reads.
-/
namespace EARanges.Algorithm
open EARanges.Support

variable {α κ : Type}

section
variable (pred : κ → Bool) (proj : α → κ) (husk : α → α)

/-- `for(; i != last; ++i) if(!pred(*i)) { *first = iter_move(i); ++first; }`. -/
def removeIfLoop : Nat → List α → Nat → Nat → Exec (List α × Nat)
  | 0, _, _, _ => .error .fuel
  | fuel + 1, l, first, i =>
    if i = l.length then .ok (l, first)
    else do
      let x ← deref l i
      if !pred (proj x) then
        let l ← assignMoved husk l first i
        let first ← incr l first
        let i ← incr l i
        removeIfLoop fuel l first i
      else
        let i ← incr l i
        removeIfLoop fuel l first i

def removeIf (l : List α) : Exec (List α × Nat) := do
  let first ← findIf pred proj l l.length (l.length + 1) 0
  if first ≠ l.length then
    let i ← incr l first
    removeIfLoop pred proj husk l.length l first i
  else .ok (l, first)

end

/-- `remove`, whose loops test `proj(*i) == val`. -/
def remove [BEq κ] (val : κ) (proj : α → κ) (husk : α → α) (l : List α) : Exec (List α × Nat) :=
  removeIf (fun k => k == val) proj husk l

/-- `for(; first != last; ++first, ++out) *out = fun(proj(*first));`, with both ends. -/
def transformLoop (fun_ : κ → α) (proj : α → κ) :
    Nat → List α → Nat → Nat → Exec (List α × Nat × Nat)
  | 0, _, _, _ => .error .fuel
  | fuel + 1, l, first, out =>
    if first = l.length then .ok (l, first, out)
    else do
      let x ← deref l first
      let l ← assign l out (fun_ (proj x))
      let first ← incr l first
      let out ← incr l out
      transformLoop fun_ proj fuel l first out

/-- `transform(rng, begin(rng), fun, proj)`. -/
def transform (fun_ : κ → α) (proj : α → κ) (l : List α) : Exec (List α × Nat × Nat) :=
  transformLoop fun_ proj (l.length + 1) l 0 0

/-- What is kept of the elements from `i` on is added to the front. -/
theorem removeIfLoop_spec (pred : κ → Bool) (proj : α → κ) (husk : α → α) {rest l : List α}
    {first i fuel : Nat} (hgap : first < i) (hi : i ≤ l.length) (hrest : l.drop i = rest)
    (hfuel : rest.length < fuel) :
    ∃ out, removeIfLoop pred proj husk fuel l first i =
        .ok (out, first + (rest.filter fun x => !pred (proj x)).length) ∧
      out.length = l.length ∧
      out.take (first + (rest.filter fun x => !pred (proj x)).length) =
        l.take first ++ rest.filter fun x => !pred (proj x) := by
  induction rest generalizing l first i fuel with
  | nil =>
    obtain ⟨fuel, rfl⟩ : ∃ n, fuel = n + 1 := ⟨fuel - 1, by omega⟩
    have hend : i = l.length := Nat.le_antisymm hi (List.drop_eq_nil_iff.mp hrest)
    refine ⟨l, ?_, rfl, (List.append_nil _).symm⟩
    rw [removeIfLoop, if_pos hend]
    rfl
  | cons x rest ih =>
    obtain ⟨fuel, rfl⟩ : ∃ n, fuel = n + 1 := ⟨fuel - 1, by omega⟩
    have hfuel' : rest.length < fuel := Nat.lt_of_succ_lt_succ hfuel
    obtain ⟨hlt, hx, hdrop⟩ := deref_of_drop hrest
    rw [removeIfLoop, if_neg (Nat.ne_of_lt hlt), hx, exec_bind_ok]
    by_cases hpred : pred (proj x)
    · rw [if_neg (by simp [hpred]), incr_ok hlt, exec_bind_ok,
        List.filter_cons_of_neg (by simp [hpred])]
      exact ih (Nat.lt_succ_of_lt hgap) hlt hdrop hfuel'
    · obtain ⟨l', hmove, hlength, hfront, hback⟩ := assignMoved_spec husk hx hgap hlt
      have hi' : i + 1 ≤ l'.length := by omega
      obtain ⟨out, hrun, hout, htake⟩ :=
        ih (Nat.succ_lt_succ hgap) hi' (hback.trans hdrop) hfuel'
      have hcount : first + 1 + (rest.filter fun x => !pred (proj x)).length =
          first + (x :: rest.filter fun x => !pred (proj x)).length := by
        rw [List.length_cons]
        omega
      rw [hcount] at hrun htake
      rw [if_pos (by simp [hpred]), hmove, exec_bind_ok, incr_ok (by omega), exec_bind_ok,
        incr_ok (by omega), exec_bind_ok, List.filter_cons_of_pos (by simp [hpred])]
      refine ⟨out, hrun, hout.trans hlength, ?_⟩
      rw [htake, hfront, List.append_assoc, List.singleton_append]

/-- What is kept ends up in front, in its order. -/
theorem removeIf_spec (pred : κ → Bool) (proj : α → κ) (husk : α → α) (l : List α) :
    ∃ out, removeIf pred proj husk l =
        .ok (out, (l.filter fun x => !pred (proj x)).length) ∧
      out.length = l.length ∧
      out.take (l.filter fun x => !pred (proj x)).length =
        l.filter fun x => !pred (proj x) := by
  obtain hnone | ⟨a, y, b, rfl, ha, hy⟩ := all_or_first (fun x => !pred (proj x)) l
  · have hkeep : (l.filter fun x => !pred (proj x)) = l := List.filter_eq_self.mpr hnone
    have hfind := @findIf_none α κ pred proj [] l [] (l.length + 1)
      (fun x hx => by simpa using hnone x hx) (Nat.lt_succ_self _)
    rw [List.nil_append, List.append_nil, List.length_nil, Nat.zero_add] at hfind
    refine ⟨l, ?_, rfl, by rw [hkeep, List.take_length]⟩
    rw [removeIf, hfind, exec_bind_ok, if_neg (not_not_intro rfl), hkeep]
  · have hkeep : ((a ++ y :: b).filter fun x => !pred (proj x)) =
        a ++ b.filter fun x => !pred (proj x) := by
      rw [List.filter_append, List.filter_eq_self.mpr ha, List.filter_cons_of_neg (by simp [hy])]
    have hlength : (a ++ y :: b).length = a.length + b.length + 1 := by
      rw [List.length_append, List.length_cons, Nat.add_assoc]
    have hfind := @findIf_some α κ pred proj [] a b y (a ++ y :: b).length
      ((a ++ y :: b).length + 1) (fun x hx => by simpa using ha x hx) (by simpa using hy)
      (by rw [List.length_nil]; omega) (by omega)
    rw [List.nil_append, List.length_nil, Nat.zero_add] at hfind
    have hrest : (a ++ y :: b).drop (a.length + 1) = b := by
      rw [← List.drop_drop, List.drop_left]
      rfl
    have hfuel : b.length < (a ++ y :: b).length := by omega
    obtain ⟨out, hrun, hout, htake⟩ :=
      removeIfLoop_spec pred proj husk (Nat.lt_succ_self a.length) (by omega) hrest hfuel
    rw [List.take_left] at htake
    refine ⟨out, ?_, hout, ?_⟩
    · rw [removeIf, hfind, exec_bind_ok, if_pos (by omega), incr_ok (by omega), exec_bind_ok, hrun,
        hkeep, List.length_append]
    · rw [hkeep, List.length_append, htake]

theorem transformLoop_spec (fun_ : κ → α) (proj : α → κ) (done : List α) {rest : List α}
    {fuel : Nat} (hfuel : rest.length < fuel) :
    transformLoop fun_ proj fuel (done ++ rest) done.length done.length =
      .ok (done ++ rest.map (fun x => fun_ (proj x)), done.length + rest.length,
        done.length + rest.length) := by
  induction rest generalizing done fuel with
  | nil =>
    obtain ⟨fuel, rfl⟩ : ∃ n, fuel = n + 1 := ⟨fuel - 1, by omega⟩
    rw [transformLoop, if_pos (by rw [List.append_nil])]
    rfl
  | cons x rest ih =>
    obtain ⟨fuel, rfl⟩ : ∃ n, fuel = n + 1 := ⟨fuel - 1, by omega⟩
    have hne : done.length ≠ (done ++ x :: rest).length := by simp
    have hnext : done ++ fun_ (proj x) :: rest = (done ++ [fun_ (proj x)]) ++ rest := by simp
    have hlt : done.length < (done ++ fun_ (proj x) :: rest).length := by simp
    have hrun := ih (done ++ [fun_ (proj x)]) (Nat.lt_of_succ_lt_succ hfuel)
    rw [List.length_append, List.length_singleton, ← hnext, List.append_assoc] at hrun
    rw [transformLoop, if_neg hne, deref_append, exec_bind_ok, assign_append, exec_bind_ok,
      incr_ok hlt, exec_bind_ok, exec_bind_ok, hrun, List.length_cons, Nat.add_right_comm,
      Nat.add_assoc]
    rfl

theorem transform_spec (fun_ : κ → α) (proj : α → κ) (l : List α) :
    transform fun_ proj l = .ok (l.map fun x => fun_ (proj x), l.length, l.length) := by
  have hrun := transformLoop_spec fun_ proj [] (Nat.lt_succ_self l.length)
  rwa [List.nil_append, List.nil_append, List.length_nil, Nat.zero_add] at hrun

end EARanges.Algorithm
