import EARanges.Support.InPlace

/-!
# `find_if` and its reverse

EASTL/algorithm.h, `find_if` and `find_if_not`, the latter on reverse iterators as well. A
reverse iterator is its `base()`, and `*it` is the element before it.
-/
namespace EARanges.Algorithm
open EARanges.Support

variable {α κ : Type}

section
variable (pred : κ → Bool) (proj : α → κ)

/-- `find_if(first, last, pred, proj)`. -/
def findIf (l : List α) (last : Nat) : Nat → Nat → Exec Nat
  | 0, _ => .error .fuel
  | fuel + 1, first =>
    if first = last then .ok first
    else do
      let x ← deref l first
      if !pred (proj x) then
        let first ← incr l first
        findIf l last fuel first
      else .ok first

def findIfNot (l : List α) (last : Nat) : Nat → Nat → Exec Nat :=
  findIf (fun y => !pred y) proj l last

/-- `find_if_not` on reverse iterators. -/
def findIfNotReverse (l : List α) (last : Nat) : Nat → Nat → Exec Nat
  | 0, _ => .error .fuel
  | fuel + 1, first =>
    if first = last then .ok first
    else do
      let i ← stepBack first
      let x ← deref l i
      if !pred (proj x) then .ok first
      else
        let first ← stepBack first
        findIfNotReverse l last fuel first

end

variable {pred : κ → Bool} {proj : α → κ}

theorem findIf_skip {a b c : List α} {last : Nat} (hb : ∀ x ∈ b, pred (proj x) = false)
    (hlast : a.length + b.length ≤ last) (fuel : Nat) :
    findIf pred proj (a ++ (b ++ c)) last (b.length + fuel) a.length =
      findIf pred proj (a ++ (b ++ c)) last fuel (a.length + b.length) := by
  induction b generalizing a with
  | nil => rw [List.length_nil, Nat.zero_add, Nat.add_zero]
  | cons x b ih =>
    obtain ⟨hx, hb⟩ := List.forall_mem_cons.mp hb
    rw [List.length_cons] at hlast
    have hrest := ih (a := a ++ [x]) hb (by rw [List.length_append, List.length_singleton]; omega)
    have hincr : incr (a ++ x :: (b ++ c)) a.length = .ok (a.length + 1) := incr_ok (by simp)
    rw [List.length_append, List.length_singleton, List.append_assoc, Nat.add_right_comm] at hrest
    rw [List.length_cons, Nat.succ_add, findIf, List.cons_append, if_neg (by omega),
      deref_append, exec_bind_ok, if_pos (by simp [hx]), hincr, exec_bind_ok]
    exact hrest

theorem findIf_none {a b c : List α} (fuel : Nat) (hb : ∀ x ∈ b, pred (proj x) = false)
    (hfuel : b.length < fuel) :
    findIf pred proj (a ++ (b ++ c)) (a.length + b.length) fuel a.length =
      .ok (a.length + b.length) := by
  obtain ⟨fuel, rfl⟩ := Nat.exists_eq_add_of_lt hfuel
  rw [Nat.add_assoc, findIf_skip hb (Nat.le_refl _), findIf, if_pos rfl]

theorem findIf_some {a b c : List α} {y : α} (last fuel : Nat)
    (hb : ∀ x ∈ b, pred (proj x) = false) (hy : pred (proj y) = true)
    (hlast : a.length + b.length < last) (hfuel : b.length < fuel) :
    findIf pred proj (a ++ (b ++ y :: c)) last fuel a.length = .ok (a.length + b.length) := by
  obtain ⟨fuel, rfl⟩ := Nat.exists_eq_add_of_lt hfuel
  have hread : deref (a ++ (b ++ y :: c)) (a.length + b.length) = .ok y := by
    rw [← List.append_assoc, ← List.length_append]
    exact deref_append (a ++ b) y c
  rw [Nat.add_assoc, findIf_skip hb (Nat.le_of_lt hlast), findIf, if_neg (Nat.ne_of_lt hlast),
    hread, exec_bind_ok, if_neg (by simp [hy])]

/-- By position: the first element from `first` on that satisfies the predicate, or `last`. -/
theorem findIf_spec (pred : κ → Bool) (proj : α → κ) {l : List α} {last fuel first : Nat}
    (hfirst : first ≤ last) (hlast : last ≤ l.length) (hfuel : last < first + fuel) :
    ∃ t, findIf pred proj l last fuel first = .ok t ∧ first ≤ t ∧ t ≤ last ∧
      (∀ k x, first ≤ k → k < t → l[k]? = some x → pred (proj x) = false) ∧
      (t < last → ∃ x, l[t]? = some x ∧ pred (proj x) = true) := by
  induction fuel generalizing first with
  | zero => omega
  | succ fuel ih =>
    rw [findIf]
    by_cases hend : first = last
    · rw [if_pos hend]
      exact ⟨first, rfl, Nat.le_refl _, hfirst, fun k x hk hkt => by omega, fun h => by omega⟩
    · have hlt : first < l.length := by omega
      have hget := List.getElem?_eq_getElem hlt
      rw [if_neg hend, deref_eq hlt, exec_bind_ok]
      cases htest : pred (proj l[first]) with
      | true =>
        exact ⟨first, rfl, Nat.le_refl _, hfirst, fun k x hk hkt => by omega,
          fun _ => ⟨l[first], hget, htest⟩⟩
      | false =>
        obtain ⟨t, hrun, hle, htlast, hbefore, hhere⟩ :=
          ih (by omega : first + 1 ≤ last) (by omega)
        rw [if_pos Bool.not_false, incr_ok hlt, exec_bind_ok]
        refine ⟨t, hrun, by omega, htlast, fun k x hk hkt hx => ?_, hhere⟩
        obtain hk | rfl := Nat.lt_or_eq_of_le hk
        · exact hbefore k x hk hkt hx
        · obtain rfl := Option.some.inj (hget.symm.trans hx)
          exact htest

theorem findIfNotReverse_skip {a b c : List α} (last : Nat) (hb : ∀ x ∈ b, pred (proj x) = true)
    (hlast : last ≤ a.length) (fuel : Nat) :
    findIfNotReverse pred proj (a ++ (b ++ c)) last (b.length + fuel) (a.length + b.length) =
      findIfNotReverse pred proj (a ++ (b ++ c)) last fuel a.length := by
  induction b using List.reverseRecOn generalizing c with
  | nil => rw [List.length_nil, Nat.zero_add, Nat.add_zero]
  | append_singleton b x ih =>
    have hx := hb x (by simp)
    have hread : deref (a ++ (b ++ [x] ++ c)) (a.length + b.length) = .ok x := by
      have h := deref_append (a ++ b) x c
      simpa using h
    have hrest := ih (c := x :: c) fun z hz => hb z (List.mem_append_left [x] hz)
    have hlist : b ++ [x] ++ c = b ++ x :: c := by simp
    rw [List.length_append, List.length_singleton, Nat.add_right_comm b.length, ← Nat.add_assoc,
      findIfNotReverse, if_neg (by omega), stepBack_succ, exec_bind_ok, hread, exec_bind_ok,
      if_neg (by simp [hx]), exec_bind_ok, hlist]
    exact hrest

/-- Nothing before `first` is kept: the search ends at `last`. -/
theorem findIfNotReverse_none {a b c : List α} (fuel : Nat) (hb : ∀ x ∈ b, pred (proj x) = true)
    (hfuel : b.length < fuel) :
    findIfNotReverse pred proj (a ++ (b ++ c)) a.length fuel (a.length + b.length) =
      .ok a.length := by
  obtain ⟨fuel, rfl⟩ := Nat.exists_eq_add_of_lt hfuel
  rw [Nat.add_assoc, findIfNotReverse_skip _ hb (Nat.le_refl _), findIfNotReverse, if_pos rfl]

theorem findIfNotReverse_some {a b c : List α} {z : α} (last fuel : Nat)
    (hz : pred (proj z) = false) (hb : ∀ x ∈ b, pred (proj x) = true) (hlast : last ≤ a.length)
    (hfuel : b.length < fuel) :
    findIfNotReverse pred proj (a ++ z :: (b ++ c)) last fuel (a.length + 1 + b.length) =
      .ok (a.length + 1) := by
  obtain ⟨fuel, rfl⟩ := Nat.exists_eq_add_of_lt hfuel
  have hskip := findIfNotReverse_skip (a := a ++ [z]) (c := c) last hb
    (by rw [List.length_append]; omega) (fuel + 1)
  simp only [List.length_append, List.length_singleton, List.append_assoc,
    List.singleton_append] at hskip
  rw [Nat.add_assoc, hskip, findIfNotReverse, if_neg (by omega), stepBack_succ, exec_bind_ok,
    deref_append, exec_bind_ok, if_pos (by simp [hz])]

end EARanges.Algorithm
