import EARanges.Action.Slice
import EARanges.Algorithm.RemoveIf
import EARanges.Algorithm.UniqueCopy

/-!
# Actions that erase

action/drop.hpp, action/drop_while.hpp, action/take.hpp, action/take_while.hpp,
action/remove_if.hpp, action/remove.hpp, action/adjacent_remove_if.hpp and action/unique.hpp. Some
erase a part of the container as it is, the others what an algorithm has left behind the iterator
that it returns.
-/
namespace EARanges.Action
open EARanges.Support EARanges.Iterator EARanges.View EARanges.Algorithm

variable {α κ : Type} (lang : IfConstexpr) (husk : α → α)

/-- `actions::drop(rng, n)`. -/
def drop (c : BaseRange α) (n : Int) : Exec (BaseRange α) :=
  if ¬ 0 ≤ n then .error .fault
  else do
    let it ← nextEnd lang c.traits c.length 0 n
    erase c 0 it

/-- `actions::take(rng, n)`. -/
def take (c : BaseRange α) (n : Int) : Exec (BaseRange α) :=
  if ¬ 0 ≤ n then .error .fault
  else do
    let it ← nextEnd lang c.traits c.length 0 n
    erase c it c.length

/-- `actions::drop_while(rng, fun)`. -/
def dropWhile (c : BaseRange α) (fun_ : α → Bool) : Exec (BaseRange α) := do
  let it ← findIfNot fun_ id c.list c.length (c.length + 1) 0
  erase c 0 it

/-- `actions::take_while(rng, fun)`. -/
def takeWhile (c : BaseRange α) (fun_ : α → Bool) : Exec (BaseRange α) := do
  let it ← findIfNot fun_ id c.list c.length (c.length + 1) 0
  erase c it c.length

/-- `auto it = algorithm(rng, …); erase(rng, it, end(rng));`. -/
def eraseBehind (algorithm : List α → Exec (List α × Nat)) (c : BaseRange α) :
    Exec (BaseRange α) := do
  let (l, it) ← algorithm c.list
  erase { c with list := l } it l.length

/-- `actions::remove_if(rng, pred, proj)`. -/
def removeIf (pred : κ → Bool) (proj : α → κ) (c : BaseRange α) : Exec (BaseRange α) :=
  eraseBehind (Algorithm.removeIf pred proj husk) c

/-- `actions::remove(rng, value, proj)`. -/
def remove [BEq κ] (value : κ) (proj : α → κ) (c : BaseRange α) : Exec (BaseRange α) :=
  eraseBehind (Algorithm.remove value proj husk) c

/-- `actions::adjacent_remove_if(rng, pred, proj)`. -/
def adjacentRemoveIf (pred : κ → κ → Bool) (proj : α → κ) (c : BaseRange α) :
    Exec (BaseRange α) :=
  eraseBehind (Algorithm.adjacentRemoveIf pred proj husk) c

/-- `actions::unique(rng, pred, proj)`, with function objects that a move leaves as they are. -/
def unique (pred : κ → κ → Bool) (proj : α → κ) (c : BaseRange α) : Exec (BaseRange α) :=
  eraseBehind (Algorithm.unique pred proj (fun x y => .ok (pred x y)) fun x => .ok (proj x)) c

variable {lang husk} {c : BaseRange α}

theorem drop_eq (n : Nat) : drop lang c n = .ok { c with list := c.list.drop n } := by
  have hlist : c.list.drop (min (0 + n) c.length) = c.list.drop n := by
    rw [Nat.zero_add, BaseRange.length, ← List.drop_eq_drop_min]
  rw [drop, if_neg (not_not_intro (Int.natCast_nonneg n)), nextEnd_eq (Nat.zero_le _),
    exec_bind_ok, Slice.erase_front (Nat.min_le_right _ _), hlist]

theorem take_eq (n : Nat) : take lang c n = .ok { c with list := c.list.take n } := by
  have hlist : c.list.take (min (0 + n) c.length) = c.list.take n := by
    rw [Nat.zero_add, BaseRange.length, ← List.take_eq_take_min]
  rw [take, if_neg (not_not_intro (Int.natCast_nonneg n)), nextEnd_eq (Nat.zero_le _),
    exec_bind_ok, Slice.erase_back (Nat.min_le_right _ _), hlist]

theorem findIfNot_eq (fun_ : α → Bool) (l : List α) :
    findIfNot fun_ id l l.length (l.length + 1) 0 = .ok (l.findIdx fun x => !fun_ x) := by
  obtain ⟨t, hrun, _, hle, hbefore, hhere⟩ := findIf_spec (fun y => !fun_ y) id (l := l)
    (Nat.zero_le _) (Nat.le_refl _) (show l.length < 0 + (l.length + 1) by omega)
  have hindex : l.findIdx (fun x => !fun_ x) = t := by
    by_cases hlt : t < l.length
    · obtain ⟨x, hx, hstop⟩ := hhere hlt
      obtain ⟨_, rfl⟩ := List.getElem?_eq_some_iff.mp hx
      exact (List.findIdx_eq hlt).mpr ⟨hstop, fun j hj =>
        hbefore j _ (Nat.zero_le j) hj (List.getElem?_eq_getElem (Nat.lt_trans hj hlt))⟩
    · obtain rfl : t = l.length := Nat.le_antisymm hle (Nat.not_lt.mp hlt)
      refine List.findIdx_eq_length.mpr fun x hx => ?_
      obtain ⟨j, hj, rfl⟩ := List.getElem_of_mem hx
      exact hbefore j _ (Nat.zero_le j) hj (List.getElem?_eq_getElem hj)
  rw [hindex]
  exact hrun

theorem dropWhile_eq (fun_ : α → Bool) :
    dropWhile c fun_ = .ok { c with list := c.list.dropWhile fun_ } := by
  rw [dropWhile, BaseRange.length, findIfNot_eq, exec_bind_ok,
    Slice.erase_front List.findIdx_le_length, List.dropWhile_eq_drop_findIdx_not]

theorem takeWhile_eq (fun_ : α → Bool) :
    takeWhile c fun_ = .ok { c with list := c.list.takeWhile fun_ } := by
  have hback := Slice.erase_back (c := c) (List.findIdx_le_length (p := fun x => !fun_ x))
  rw [BaseRange.length] at hback
  rw [takeWhile, BaseRange.length, findIfNot_eq, exec_bind_ok, hback,
    List.takeWhile_eq_take_findIdx_not]

/-- An algorithm that brings what it keeps to the front. -/
theorem eraseBehind_eq {algorithm : List α → Exec (List α × Nat)} {kept : List α}
    (h : KeepsPrefix (algorithm c.list) kept) :
    eraseBehind algorithm c = .ok { c with list := kept } := by
  obtain ⟨l, hrun, hkept⟩ := h
  have hle : kept.length ≤ l.length := by
    rw [← hkept, List.length_take]
    exact Nat.min_le_right _ _
  have hback := Slice.erase_back (c := { c with list := l }) hle
  rw [eraseBehind, hrun, exec_bind_ok]
  exact hback.trans (by rw [hkept])

theorem removeIf_eq (pred : κ → Bool) (proj : α → κ) :
    removeIf husk pred proj c =
      .ok { c with list := c.list.filter fun x => !pred (proj x) } := by
  obtain ⟨out, hrun, _, hkept⟩ := Algorithm.removeIf_spec pred proj husk c.list
  exact eraseBehind_eq ⟨out, hrun, hkept⟩

theorem adjacentRemoveIf_eq (pred : κ → κ → Bool) (proj : α → κ) :
    adjacentRemoveIf husk pred proj c =
      .ok { c with list := keptByNext (projected pred proj) c.list } := by
  obtain ⟨out, hrun, _, hkept⟩ := Algorithm.adjacentRemoveIf_spec pred proj husk c.list
  exact eraseBehind_eq ⟨out, hrun, hkept⟩

theorem unique_eq (pred : κ → κ → Bool) (proj : α → κ) :
    unique pred proj c = .ok { c with list := uniqued (projected pred proj) c.list } := by
  apply eraseBehind_eq
  cases hlist : c.list with
  | nil => exact ⟨[], rfl, rfl⟩
  | cons x rest =>
    rw [uniqued_cons, Algorithm.unique, adjacentFind, if_neg (by simp)]
    exact (adjacentFindLoop_keeps_iff (a := []) rfl (Nat.lt_succ_self rest.length)).mpr
      (answers_of_unchanged (fun _ _ => rfl) (x :: rest))

end EARanges.Action
