import EARanges.Support.InPlace
import EARanges.Support.StableOrder

/-!
# Insertion sort

algorithm/sort.hpp, `unguarded_linear_insert`, `linear_insert`, `insertion_sort`,
`unguarded_insertion_sort`. The unguarded variant looks for the place from the back
and relies on an element that stops it; stepping over the begin of the range faults.
Both insert behind the last element that is not greater, so insertion is stable.
-/
namespace EARanges.Algorithm
open EARanges.Support

variable {α κ : Type}

section
variable (pred : κ → κ → Bool) (proj : α → κ)

/-- The loop of `unguarded_linear_insert`, with `next_` the index before `last`. -/
def unguardedLinearInsert (l : List α) (val : α) : Nat → Exec (List α)
  | 0 => .error .fault
  | next + 1 => do
    let x ← deref l next
    if pred (proj val) (proj x) then
      let l ← assign l (next + 1) x
      unguardedLinearInsert l val next
    else assign l (next + 1) val

def linearInsert (l : List α) (first last : Nat) : Exec (List α) := do
  let val ← deref l last
  let x ← deref l first
  if pred (proj val) (proj x) then
    let (l, _) ← moveBackward l (last - first) last (last + 1)
    assign l first val
  else unguardedLinearInsert pred proj l val last

/-- `for(I i = ...; i != last; ++i) linear_insert(first, i)`, `count` steps from `i`. -/
def linearInsertLoop (l : List α) : Nat → Nat → Exec (List α)
  | 0, _ => .ok l
  | count + 1, i => do
    let l ← linearInsert pred proj l 0 i
    linearInsertLoop l count (i + 1)

def insertionSort (l : List α) : Exec (List α) :=
  if l.length = 0 then .ok l
  else linearInsertLoop pred proj l (l.length - 1) 1

def unguardedInsertionLoop (l : List α) : Nat → Nat → Exec (List α)
  | 0, _ => .ok l
  | count + 1, i => do
    let val ← deref l i
    let l ← unguardedLinearInsert pred proj l val i
    unguardedInsertionLoop l count (i + 1)

def unguardedInsertionSort (l : List α) (first last : Nat) : Exec (List α) :=
  unguardedInsertionLoop pred proj l (last - first) first

end

variable {pred : κ → κ → Bool} {proj : α → κ}

/-- `val` was put into `l` behind the last element that is not greater. -/
def Inserted (lt : α → α → Bool) (l : List α) (val : α) (r : List α) : Prop :=
  ∃ p q, l = p ++ q ∧ r = p ++ val :: q ∧ (∀ y ∈ q, lt val y = true) ∧
    (p = [] ∨ ∃ p' y, p = p' ++ [y] ∧ lt val y = false)

theorem Inserted.length {lt : α → α → Bool} {l r : List α} {val : α} (h : Inserted lt l val r) :
    r.length = l.length + 1 := by
  obtain ⟨p, q, rfl, rfl, _⟩ := h
  simp only [List.length_append, List.length_cons]
  omega

/-- Into a sorted list, this keeps it sorted, and `val` goes behind its equals. -/
theorem Inserted.isStableSort {lt : α → α → Bool} (h : StrictWeakOrder lt) {l r : List α} {val : α}
    (hl : Sorted lt l) (hins : Inserted lt l val r) : IsStableSort lt (l ++ [val]) r := by
  obtain ⟨p, q, rfl, rfl, hq, hp⟩ := hins
  obtain ⟨hps, hqs, hpq⟩ := List.pairwise_append.mp hl
  have hle : ∀ x ∈ p, lt val x = false := by
    intro x hx
    obtain rfl | ⟨p', y, rfl, hy⟩ := hp
    · cases hx
    · obtain hx | hx := List.mem_append.mp hx
      · exact h.not_lt_trans ((List.pairwise_append.mp hps).2.2 x hx y (by simp)) hy
      · rw [List.mem_singleton.mp hx]
        exact hy
  have hval : Sorted lt (val :: q) :=
    List.pairwise_cons.mpr ⟨fun y hy => h.asymm (hq y hy), hqs⟩
  refine ⟨sorted_append hps hval fun x hx y hy => ?_, ?_⟩
  · obtain rfl | hy := List.mem_cons.mp hy
    · exact hle x hx
    · exact hpq x hx y hy
  · rw [List.append_assoc]
    apply (StablePerm.refl p).append
    apply StablePerm.swap h
    intro y hy z hz
    rw [List.mem_singleton.mp hz]
    exact hq y hy

/-- The scan from the back stops inside the range if some element in front is not
greater than the value. -/
theorem unguardedLinearInsert_spec (p : List α) (x val : α) (q : List α)
    (h : ∃ y ∈ p, projected pred proj val y = false) :
    ∃ r, unguardedLinearInsert pred proj (p ++ x :: q) val p.length = .ok (r ++ q) ∧
      Inserted (projected pred proj) p val r := by
  induction p using List.reverseRecOn generalizing x q with
  | nil =>
    obtain ⟨y, hy, _⟩ := h
    cases hy
  | append_singleton p y ih =>
    have hlen : (p ++ [y]).length = p.length + 1 := by simp
    have hderef : deref (p ++ [y] ++ x :: q) p.length = .ok y := by
      rw [List.append_assoc]
      exact deref_append p y (x :: q)
    have hassign (z : α) : assign (p ++ [y] ++ x :: q) (p.length + 1) z =
        .ok (p ++ [y] ++ z :: q) := by
      rw [← hlen]
      exact assign_append _ x z q
    rw [hlen, unguardedLinearInsert, hderef, exec_bind_ok]
    cases hlt : pred (proj val) (proj y) with
    | false =>
      rw [if_neg (by simp), hassign]
      refine ⟨p ++ [y] ++ [val], by simp, p ++ [y], [], by simp, rfl, by simp, .inr ?_⟩
      exact ⟨p, y, rfl, hlt⟩
    | true =>
      rw [if_pos rfl, hassign, exec_bind_ok, List.append_assoc, List.singleton_append]
      have hstop : ∃ z ∈ p, projected pred proj val z = false := by
        obtain ⟨z, hz, hzlt⟩ := h
        obtain hz | hz := List.mem_append.mp hz
        · exact ⟨z, hz, hzlt⟩
        · rw [List.mem_singleton.mp hz] at hzlt
          rw [projected, hlt] at hzlt
          cases hzlt
      obtain ⟨r, hrun, p₁, p₂, hp, hr, hgreater, hfront⟩ := ih y (y :: q) hstop
      refine ⟨r ++ [y], by rw [hrun]; simp, p₁, p₂ ++ [y], by simp [hp], by simp [hr], ?_, hfront⟩
      intro z hz
      obtain hz | hz := List.mem_append.mp hz
      · exact hgreater z hz
      · rw [List.mem_singleton.mp hz]
        exact hlt

/-- `linear_insert` into a sorted prefix. -/
theorem linearInsert_spec (h : StrictWeakOrder pred) {p : List α} (hp : p ≠ [])
    (hsorted : Sorted (projected pred proj) p) (val : α) (q : List α) :
    ∃ r, linearInsert pred proj (p ++ val :: q) 0 p.length = .ok (r ++ q) ∧
      Inserted (projected pred proj) p val r := by
  have hderef : deref (p ++ val :: q) p.length = .ok val := deref_append p val q
  obtain ⟨x, p', rfl⟩ := List.exists_cons_of_ne_nil hp
  have hfirst : deref (x :: p' ++ val :: q) 0 = .ok x := rfl
  rw [linearInsert, hderef, exec_bind_ok, hfirst, exec_bind_ok]
  cases hlt : pred (proj val) (proj x) with
  | true =>
    -- the value is less than the first element, hence than all of them
    have hmove := moveBackward_right [] (x :: p') val q
    simp only [List.nil_append, List.length_nil, Nat.zero_add, List.headD_cons] at hmove
    rw [if_pos rfl, Nat.sub_zero, hmove, exec_bind_ok]
    refine ⟨val :: x :: p', rfl, [], x :: p', rfl, rfl, fun y hy => ?_, .inl rfl⟩
    obtain rfl | hy := List.mem_cons.mp hy
    · exact hlt
    · exact (h.projected proj).lt_of_lt_of_not_lt hlt ((List.pairwise_cons.mp hsorted).1 y hy)
  | false =>
    rw [if_neg (by simp)]
    exact unguardedLinearInsert_spec _ val val q ⟨x, by simp, hlt⟩

theorem linearInsertLoop_spec (h : StrictWeakOrder pred) {p : List α} (hp : p ≠ [])
    (hsorted : Sorted (projected pred proj) p) (q : List α) :
    ∃ r, linearInsertLoop pred proj (p ++ q) q.length p.length = .ok r ∧
      IsStableSort (projected pred proj) (p ++ q) r := by
  induction q generalizing p with
  | nil => exact ⟨p, by simp [linearInsertLoop], by rw [List.append_nil]; exact .self hsorted⟩
  | cons val q ih =>
    obtain ⟨r₁, hrun₁, hins⟩ := linearInsert_spec h hp hsorted val q
    have hstable := hins.isStableSort (h.projected proj) hsorted
    have hlen : r₁.length = p.length + 1 := hins.length
    have hne : r₁ ≠ [] := List.ne_nil_of_length_pos (by omega)
    obtain ⟨r, hrun, hr⟩ := ih hne hstable.sorted
    refine ⟨r, ?_, ?_⟩
    · rw [hlen] at hrun
      rw [List.length_cons, linearInsertLoop, hrun₁, exec_bind_ok, hrun]
    · have happend : p ++ val :: q = (p ++ [val]) ++ q := by simp
      rw [happend]
      exact hr.of_stablePerm (hstable.stable.append (.refl q))

theorem insertionSort_spec (h : StrictWeakOrder pred) (proj : α → κ) (l : List α) :
    ∃ r, insertionSort pred proj l = .ok r ∧ IsStableSort (projected pred proj) l r := by
  cases l with
  | nil => exact ⟨[], rfl, .self .nil⟩
  | cons x l =>
    rw [insertionSort, if_neg (by simp)]
    exact linearInsertLoop_spec (p := [x]) h (by simp) (by simp) l

/-- The unguarded loop stays inside the range if some element of the sorted front is
not greater than any element behind it. -/
theorem unguardedInsertionLoop_spec (h : StrictWeakOrder pred) {p : List α}
    (hsorted : Sorted (projected pred proj) p) (q : List α)
    (hguard : ∃ y ∈ p, ∀ z ∈ q, projected pred proj z y = false) :
    ∃ r, unguardedInsertionLoop pred proj (p ++ q) q.length p.length = .ok r ∧
      IsStableSort (projected pred proj) (p ++ q) r := by
  induction q generalizing p with
  | nil => exact ⟨p, by simp [unguardedInsertionLoop], by rw [List.append_nil]; exact .self hsorted⟩
  | cons val q ih =>
    obtain ⟨y, hy, hle⟩ := hguard
    obtain ⟨r₁, hrun₁, hins⟩ := unguardedLinearInsert_spec p val val q ⟨y, hy, hle val (by simp)⟩
    have hstable := hins.isStableSort (h.projected proj) hsorted
    have hlen : r₁.length = p.length + 1 := hins.length
    have hguard' : ∃ y ∈ r₁, ∀ z ∈ q, projected pred proj z y = false :=
      ⟨y, hstable.mem_iff.mpr (List.mem_append_left _ hy),
        fun z hz => hle z (List.mem_cons_of_mem _ hz)⟩
    obtain ⟨r, hrun, hr⟩ := ih hstable.sorted hguard'
    refine ⟨r, ?_, ?_⟩
    · rw [hlen] at hrun
      rw [List.length_cons, unguardedInsertionLoop, deref_append, exec_bind_ok, hrun₁,
        exec_bind_ok, hrun]
    · have happend : p ++ val :: q = (p ++ [val]) ++ q := by simp
      rw [happend]
      exact hr.of_stablePerm (hstable.stable.append (.refl q))

end EARanges.Algorithm
