import EARanges.Support.Exec
import Mathlib.Data.List.Induction

/-!
# Working on a range in place

A range is the list of its elements and an iterator into it an index. Reading,
writing and stepping outside the range fault. A function that is handed a sub-range
works on the list of that sub-range alone (`onRange`), so that not faulting there means
staying inside it. Results are stated for a range cut up as an append: an iterator is
then the length of what is in front of it.
-/
namespace EARanges.Support

variable {α β : Type}

/-- `*it`. -/
def deref (l : List α) (it : Nat) : Exec α :=
  match l[it]? with
  | some x => .ok x
  | none => .error .fault

/-- `++it`, which may reach the end but not pass it. -/
def incr (l : List α) (it : Nat) : Exec Nat :=
  if it < l.length then .ok (it + 1) else .error .fault

/-- `--it`, which may not pass the beginning. -/
def stepBack (it : Nat) : Exec Nat :=
  if 0 < it then .ok (it - 1) else .error .fault

/-- `*it = x`. A move leaves the old value behind. -/
def assign (l : List α) (it : Nat) (x : α) : Exec (List α) :=
  if it < l.length then .ok (l.set it x) else .error .fault

def iterSwap (l : List α) (a b : Nat) : Exec (List α) := do
  let x ← deref l a
  let y ← deref l b
  let l ← assign l a y
  assign l b x

/-- Runs `f` on the sub-range `[first, last)`; `f` may return an iterator besides. -/
def onRangeWith (l : List α) (first last : Nat) (f : List α → Exec (List α × β)) :
    Exec (List α × β) :=
  if first ≤ last ∧ last ≤ l.length then do
    let (r, b) ← f ((l.take last).drop first)
    .ok (l.take first ++ r ++ l.drop last, b)
  else .error .fault

def onRange (l : List α) (first last : Nat) (f : List α → Exec (List α)) : Exec (List α) := do
  let (r, _) ← onRangeWith l first last fun s => do
    let r ← f s
    .ok (r, ())
  .ok r

/-! ## Cutting up a range -/

theorem exists_cut {l : List α} {n : Nat} (h : n ≤ l.length) :
    ∃ a b, l = a ++ b ∧ a.length = n :=
  ⟨l.take n, l.drop n, (List.take_append_drop n l).symm, List.length_take_of_le h⟩

theorem exists_cut_at {l : List α} {n : Nat} (h : n < l.length) :
    ∃ a x b, l = a ++ x :: b ∧ a.length = n := by
  obtain ⟨a, b, rfl, ha⟩ := exists_cut (Nat.le_of_lt h)
  cases b with
  | nil =>
    rw [List.append_nil] at h
    omega
  | cons x b => exact ⟨a, x, b, rfl, ha⟩

/-- All elements have the property, or there is a first one that has not. -/
theorem all_or_first (q : α → Bool) (l : List α) :
    (∀ x ∈ l, q x = true) ∨
      ∃ a y b, l = a ++ y :: b ∧ (∀ x ∈ a, q x = true) ∧ q y = false := by
  induction l with
  | nil => exact .inl fun x hx => absurd hx List.not_mem_nil
  | cons x l ih =>
    cases hx : q x with
    | false => exact .inr ⟨[], x, l, rfl, fun y hy => absurd hy List.not_mem_nil, hx⟩
    | true =>
      obtain hall | ⟨a, y, b, rfl, ha, hy⟩ := ih
      · exact .inl (List.forall_mem_cons.mpr ⟨hx, hall⟩)
      · exact .inr ⟨x :: a, y, b, rfl, List.forall_mem_cons.mpr ⟨hx, ha⟩, hy⟩

/-- No element has the property, or there is a last one that has. -/
theorem none_or_last (q : α → Bool) (l : List α) :
    (∀ x ∈ l, q x = false) ∨
      ∃ a y b, l = a ++ y :: b ∧ q y = true ∧ ∀ x ∈ b, q x = false := by
  induction l with
  | nil => exact .inl fun x hx => absurd hx List.not_mem_nil
  | cons x l ih =>
    obtain hnone | ⟨a, y, b, rfl, hy, hb⟩ := ih
    · cases hx : q x with
      | false => exact .inl (List.forall_mem_cons.mpr ⟨hx, hnone⟩)
      | true => exact .inr ⟨[], x, l, rfl, hx, hnone⟩
    · exact .inr ⟨x :: a, y, b, rfl, hy, hb⟩

/-! ## Two elements that change places -/

section
variable {l : List α} {i j : Nat}

theorem getElem?_swap_right (hj : j < l.length) (x y : α) :
    ((l.set i y).set j x)[j]? = some x :=
  List.getElem?_set_self (by rwa [List.length_set])

theorem getElem?_swap_left (hij : i < j) (hj : j < l.length) (x y : α) :
    ((l.set i y).set j x)[i]? = some y := by
  rw [List.getElem?_set_ne (by omega), List.getElem?_set_self (by omega)]

theorem getElem?_swap_ne {k : Nat} (hi : k ≠ i) (hj : k ≠ j) (x y : α) :
    ((l.set i y).set j x)[k]? = l[k]? := by
  rw [List.getElem?_set_ne hj.symm, List.getElem?_set_ne hi.symm]

theorem perm_swap {x y : α} (hx : l[i]? = some x) (hy : l[j]? = some y) :
    l.Perm ((l.set i y).set j x) := by
  obtain ⟨hi, rfl⟩ := List.getElem?_eq_some_iff.mp hx
  obtain ⟨hj, rfl⟩ := List.getElem?_eq_some_iff.mp hy
  exact (List.set_set_perm hi hj).symm

end

/-! ## Reading and writing -/

theorem deref_eq {l : List α} {it : Nat} (h : it < l.length) : deref l it = .ok l[it] := by
  simp [deref, h]

theorem deref_of_some {l : List α} {it : Nat} {x : α} (h : l[it]? = some x) :
    deref l it = .ok x := by
  rw [deref, h]

theorem get_of_deref {l : List α} {it : Nat} {x : α} (h : deref l it = .ok x) :
    l[it]? = some x := by
  rw [deref] at h
  split at h
  next y hget => rw [hget, Except.ok.inj h]
  next => cases h

theorem deref_ok {l : List α} {it : Nat} (h : it < l.length) : ∃ x, deref l it = .ok x :=
  ⟨_, deref_eq h⟩

theorem eq_of_read {l : List α} {i : Nat} {x y : α} (hx : l[i]? = some x) (hy : l[i]? = some y) :
    y = x :=
  Option.some.inj (hy.symm.trans hx)

/-- A comparison with the end is left out only where there is room. -/
theorem lt_of_unchecked {checked : Bool} {it last : Nat} (hle : it ≤ last)
    (hcheck : ¬ (checked && decide (it = last)) = true) (hroom : checked = false → it < last) :
    it < last := by
  cases checked with
  | false => exact hroom rfl
  | true => exact Nat.lt_of_le_of_ne hle fun heq => hcheck (by simp [heq])

theorem deref_end {l : List α} {it : Nat} (h : l.length ≤ it) : deref l it = .error .fault := by
  simp [deref, h]

theorem deref_append (p : List α) (x : α) (q : List α) :
    deref (p ++ x :: q) p.length = .ok x := by
  simp [deref]

theorem incr_ok {l : List α} {it : Nat} (h : it < l.length) : incr l it = .ok (it + 1) := if_pos h

theorem incr_end {l : List α} {it : Nat} (h : l.length ≤ it) : incr l it = .error .fault :=
  if_neg (Nat.not_lt.mpr h)

theorem incr_eq_ok {l : List α} {it next : Nat} (h : incr l it = .ok next) :
    it < l.length ∧ next = it + 1 := by
  rw [incr] at h
  split at h
  next hlt => exact ⟨hlt, (Except.ok.inj h).symm⟩
  next => cases h

theorem stepBack_succ (it : Nat) : stepBack (it + 1) = .ok it := if_pos (Nat.succ_pos it)

theorem assign_eq {l : List α} {it : Nat} (h : it < l.length) (x : α) :
    assign l it x = .ok (l.set it x) := if_pos h

theorem assign_eq_ok {l l' : List α} {it : Nat} {x : α} (h : assign l it x = .ok l') :
    it < l.length ∧ l' = l.set it x := by
  rw [assign] at h
  split at h
  next hlt => exact ⟨hlt, (Except.ok.inj h).symm⟩
  next => cases h

theorem assign_append (p : List α) (x y : α) (q : List α) :
    assign (p ++ x :: q) p.length y = .ok (p ++ y :: q) := by
  simp [assign]

theorem iterSwap_eq {l : List α} {a b : Nat} {x y : α} (hx : l[a]? = some x)
    (hy : l[b]? = some y) : iterSwap l a b = .ok ((l.set a y).set b x) := by
  have ha := (List.getElem?_eq_some_iff.mp hx).1
  have hb := (List.getElem?_eq_some_iff.mp hy).1
  rw [iterSwap, deref, hx, exec_bind_ok, deref, hy, exec_bind_ok, assign_eq ha, exec_bind_ok,
    assign_eq (by rwa [List.length_set])]

theorem iterSwap_append (p : List α) (x : α) (m : List α) (y : α) (q : List α) :
    iterSwap (p ++ x :: m ++ y :: q) p.length (p.length + 1 + m.length) =
      .ok (p ++ y :: m ++ x :: q) := by
  have hx : deref (p ++ x :: m ++ y :: q) p.length = .ok x := by
    rw [List.append_assoc]
    exact deref_append p x (m ++ y :: q)
  have hlen (z : α) : p.length + 1 + m.length = (p ++ z :: m).length := by
    simp only [List.length_append, List.length_cons]
    omega
  have hy : deref (p ++ x :: m ++ y :: q) (p.length + 1 + m.length) = .ok y := by
    rw [hlen x]
    exact deref_append _ y q
  have hset : assign (p ++ x :: m ++ y :: q) p.length y = .ok (p ++ y :: m ++ y :: q) := by
    simp only [List.append_assoc]
    exact assign_append p x y (m ++ y :: q)
  have hset' : assign (p ++ y :: m ++ y :: q) (p.length + 1 + m.length) x =
      .ok (p ++ y :: m ++ x :: q) := by
    rw [hlen y]
    exact assign_append _ y x q
  simp only [iterSwap, hx, hy, hset, hset', exec_bind_ok]

theorem iterSwap_append_right (p : List α) (x : α) (m : List α) (y : α) (q : List α) :
    iterSwap (p ++ x :: m ++ y :: q) (p.length + 1 + m.length) p.length =
      .ok (p ++ y :: m ++ x :: q) := by
  have hlt : p.length < (p ++ x :: m ++ y :: q).length := by
    simp only [List.length_append, List.length_cons]
    omega
  have hlt' : p.length + 1 + m.length < (p ++ x :: m ++ y :: q).length := by
    simp only [List.length_append, List.length_cons]
    omega
  have hswap := iterSwap_append p x m y q
  rw [← hswap, iterSwap, iterSwap, deref_eq hlt, deref_eq hlt', exec_bind_ok, exec_bind_ok,
    exec_bind_ok, exec_bind_ok, assign_eq hlt, assign_eq hlt', exec_bind_ok, exec_bind_ok,
    assign_eq (by rwa [List.length_set]), assign_eq (by rwa [List.length_set]),
    List.set_comm _ _ (by omega)]

/-! ## Sub-ranges -/

theorem onRangeWith_append {p m q r : List α} {b : β} {first last : Nat}
    {f : List α → Exec (List α × β)} (hfirst : first = p.length)
    (hlast : last = p.length + m.length) (hf : f m = .ok (r, b)) :
    onRangeWith (p ++ m ++ q) first last f = .ok (p ++ r ++ q, b) := by
  subst hfirst hlast
  have htake : (p ++ m ++ q).take (p.length + m.length) = p ++ m := by
    rw [← List.length_append, List.take_left]
  have hdrop : (p ++ m ++ q).drop (p.length + m.length) = q := by
    rw [← List.length_append, List.drop_left]
  have hfront : (p ++ m ++ q).take p.length = p := by
    rw [List.append_assoc, List.take_left]
  have hle : p.length + m.length ≤ (p ++ m ++ q).length := by
    simp only [List.length_append]
    omega
  rw [onRangeWith, if_pos ⟨Nat.le_add_right _ _, hle⟩, htake, hdrop, hfront, List.drop_left, hf]
  rfl

theorem onRange_append {p m q r : List α} {first last : Nat} {f : List α → Exec (List α)}
    (hfirst : first = p.length) (hlast : last = p.length + m.length) (hf : f m = .ok r) :
    onRange (p ++ m ++ q) first last f = .ok (p ++ r ++ q) := by
  have hwith : (do let r ← f m; .ok (r, ())) = (.ok (r, ()) : Exec (List α × Unit)) := by
    rw [hf, exec_bind_ok]
  rw [onRange, onRangeWith_append hfirst hlast hwith, exec_bind_ok]

/-- The two parts of a range one after the other. -/
theorem onRange_halves {a b r r' : List α} {f g : List α → Exec (List α)} (hf : f a = .ok r)
    (hlen : r.length = a.length) (hg : g b = .ok r') :
    onRange (a ++ b) 0 a.length f = .ok (r ++ b) ∧
      onRange (r ++ b) a.length (r ++ b).length g = .ok (r ++ r') := by
  have hsecond := onRange_append (p := r) (q := []) hlen.symm (by rw [← List.length_append]) hg
  rw [List.append_nil, List.append_nil] at hsecond
  exact ⟨onRange_append (p := []) rfl (Nat.zero_add _).symm hf, hsecond⟩

/-- Only what `f` does on the sub-range counts. -/
theorem onRange_congr {l : List α} {first last : Nat} {f g : List α → Exec (List α)}
    (h : f ((l.take last).drop first) = g ((l.take last).drop first)) :
    onRange l first last f = onRange l first last g := by
  simp only [onRange, onRangeWith, h]

theorem onRange_length {l r : List α} {first last : Nat} {f : List α → Exec (List α)}
    (hf : ∀ m r, f m = .ok r → r.length = m.length) (h : onRange l first last f = .ok r) :
    r.length = l.length := by
  unfold onRange onRangeWith at h
  dsimp only at h
  split at h
  next hle =>
    obtain ⟨m, hm⟩ : ∃ m, f ((l.take last).drop first) = .ok m := by
      cases hrun : f ((l.take last).drop first) with
      | error e =>
        rw [hrun] at h
        cases h
      | ok m => exact ⟨m, rfl⟩
    have hlen := hf _ _ hm
    rw [hm] at h
    obtain rfl := Except.ok.inj h
    simp only [List.length_append, List.length_take, List.length_drop] at hlen ⊢
    omega
  next => cases h

theorem onRange_error {p m q : List α} {first last : Nat} {f : List α → Exec (List α)} {e : Stop}
    (hfirst : first = p.length) (hlast : last = p.length + m.length) (hf : f m = .error e) :
    onRange (p ++ m ++ q) first last f = .error e := by
  subst hfirst hlast
  have htake : ((p ++ m ++ q).take (p.length + m.length)).drop p.length = m := by
    rw [← List.length_append, List.take_left, List.drop_left]
  have hle : p.length ≤ p.length + m.length ∧ p.length + m.length ≤ (p ++ m ++ q).length := by
    simp only [List.length_append]
    omega
  rw [onRange, onRangeWith, if_pos hle, htake, hf]
  rfl

/-! ## Shifting elements -/

/-- `ranges::move(first, first + count, out)`: the loop, and the end of the output. -/
def move (l : List α) : Nat → Nat → Nat → Exec (List α × Nat)
  | 0, _, out => .ok (l, out)
  | count + 1, first, out => do
    let x ← deref l first
    let l ← assign l out x
    move l count (first + 1) (out + 1)

/-- `ranges::move_backward(last - count, last, result)`: the loop, and the begin of the
output. -/
def moveBackward (l : List α) : Nat → Nat → Nat → Exec (List α × Nat)
  | 0, _, result => .ok (l, result)
  | count + 1, last, result =>
    if 0 < last ∧ 0 < result then do
      let x ← deref l (last - 1)
      let l ← assign l (result - 1) x
      moveBackward l count (last - 1) (result - 1)
    else .error .fault

/-- Moving a block one place to the left. -/
theorem move_left (p : List α) (x : α) (m q : List α) :
    move (p ++ x :: m ++ q) m.length (p.length + 1) p.length =
      .ok (p ++ m ++ (m.getLastD x) :: q, p.length + m.length) := by
  induction m generalizing p x with
  | nil => simp [move]
  | cons y m ih =>
    have hy : deref (p ++ x :: (y :: m) ++ q) (p.length + 1) = .ok y := by
      have := deref_append (p ++ [x]) y (m ++ q)
      simpa using this
    have hset : assign (p ++ x :: (y :: m) ++ q) p.length y = .ok (p ++ [y] ++ y :: m ++ q) := by
      have := assign_append p x y (y :: m ++ q)
      simpa using this
    have hrest := ih (p ++ [y]) y
    simp only [List.length_append, List.length_singleton] at hrest
    rw [List.length_cons, move, hy, exec_bind_ok, hset, exec_bind_ok, hrest]
    simp only [List.append_assoc, List.getLastD_cons, Nat.add_assoc, Nat.add_comm 1,
      List.cons_append, List.nil_append]

/-- Moving a block one place to the right. -/
theorem moveBackward_right (p m : List α) (x : α) (q : List α) :
    moveBackward (p ++ m ++ x :: q) m.length (p.length + m.length) (p.length + m.length + 1) =
      .ok (p ++ (m.headD x) :: m ++ q, p.length + 1) := by
  induction m using List.reverseRecOn generalizing x q with
  | nil => simp [moveBackward]
  | append_singleton m y ih =>
    have hlen : p.length + (m ++ [y]).length = (p ++ m).length + 1 := by
      simp only [List.length_append, List.length_singleton]
      omega
    have hy : deref (p ++ (m ++ [y]) ++ x :: q) (p ++ m).length = .ok y := by
      have := deref_append (p ++ m) y (x :: q)
      simpa using this
    have hset : assign (p ++ (m ++ [y]) ++ x :: q) ((p ++ m).length + 1) y =
        .ok (p ++ m ++ y :: (y :: q)) := by
      have := assign_append (p ++ m ++ [y]) x y q
      simpa [Nat.add_assoc] using this
    have hrest := ih y (y :: q)
    rw [← List.length_append] at hrest
    rw [hlen, List.length_append, List.length_singleton, moveBackward,
      if_pos ⟨Nat.succ_pos _, Nat.succ_pos _⟩, Nat.add_sub_cancel, Nat.add_sub_cancel, hy,
      exec_bind_ok, hset, exec_bind_ok, hrest]
    cases m <;> simp

end EARanges.Support
