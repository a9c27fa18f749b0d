import EARanges.Algorithm.Heap

/-!
# `push_heap`, `pop_heap` and `is_heap`

algorithm/heap_algorithm.hpp, the rest of it. `is_heap_until_n` compares each position with
its one or two children in turn; `sift_up_n` moves a hole up to the first parent that is not
less than the element it was made for. As before the returned `first + len` is left out.
-/
namespace EARanges.Algorithm
open EARanges.Support

variable {α κ : Type}

section
variable (pred : κ → κ → Bool) (proj : α → κ)

/-- The `while` loop of `is_heap_until_n`. -/
def isHeapUntilLoop (l : List α) : Nat → Nat → Nat → Exec Nat
  | 0, _, _ => .error .fuel
  | fuel + 1, p, c =>
    if c < l.length then do
      let cp := c
      let x ← deref l p
      let y ← deref l cp
      if pred (proj x) (proj y) then .ok cp
      else
        let c := c + 1
        let cp := cp + 1
        if c = l.length then .ok cp
        else do
          let x ← deref l p
          let y ← deref l cp
          if pred (proj x) (proj y) then .ok cp
          else
            let p := p + 1
            isHeapUntilLoop l fuel p (2 * p + 1)
    else .ok l.length

def isHeapUntilN (l : List α) : Exec Nat := isHeapUntilLoop pred proj l (l.length + 1) 0 1

def isHeapN (l : List α) : Exec Bool := do
  let i ← isHeapUntilN pred proj l
  .ok (i = l.length)

def isHeapUntil (l : List α) : Exec Nat := isHeapUntilN pred proj l

def isHeap (l : List α) : Exec Bool := isHeapN pred proj l

/-- The `do` loop of `sift_up_n`, the hole being at `last` and `first + len` its parent. -/
def siftUpLoop (v : α) : Nat → List α → Nat → Nat → Exec (List α)
  | 0, _, _, _ => .error .fuel
  | fuel + 1, l, last, len => do
    let i := len
    let x ← deref l i
    let l ← assign l last x
    let last := i
    if len = 0 then assign l last v
    else do
      let len := (len - 1) / 2
      let i := len
      let x ← deref l i
      if pred (proj x) (proj v) then siftUpLoop v fuel l last len
      else assign l last v

def siftUpN (l : List α) : Exec (List α) :=
  if 1 < l.length then do
    let last := l.length
    let len := (l.length - 2) / 2
    let i := len
    let x ← deref l i
    let last := last - 1
    let v ← deref l last
    if pred (proj x) (proj v) then siftUpLoop pred proj v l.length l last len
    else .ok l
  else .ok l

def pushHeap (l : List α) : Exec (List α) := siftUpN pred proj l

def popHeap (l : List α) : Exec (List α) := popHeapN pred proj l

end

variable {pred : κ → κ → Bool} {proj : α → κ}

/-! ## Looking for a pair that is the wrong way round -/

/-- The loop stops at the end or at the first position that exceeds its parent. -/
theorem isHeapUntilLoop_spec {l : List α} (fuel : Nat) {p c : Nat} (hc : c = 2 * p + 1)
    (hp : p ≤ l.length) (hheap : HeapUpTo (projected pred proj) c l)
    (hfuel : l.length < fuel + p) :
    ∃ n, isHeapUntilLoop pred proj l fuel p c = .ok n ∧ n ≤ l.length ∧
      HeapUpTo (projected pred proj) n l ∧
      (n < l.length → ∃ q x y, IsChild q n ∧ l[q]? = some x ∧ l[n]? = some y ∧
        projected pred proj x y = true) := by
  induction fuel generalizing p c with
  | zero => omega
  | succ fuel ih =>
    rw [isHeapUntilLoop]
    by_cases hmore : c < l.length
    · have hp : p < l.length := by omega
      have hx := List.getElem?_eq_getElem hp
      have hy := List.getElem?_eq_getElem hmore
      rw [if_pos hmore, deref_eq hp, exec_bind_ok]
      dsimp only
      rw [deref_eq hmore, exec_bind_ok]
      cases hleft : pred (proj l[p]) (proj l[c]) with
      | true =>
        rw [if_pos rfl]
        exact ⟨c, rfl, by omega, hheap, fun _ => ⟨p, _, _, .inl hc, hx, hy, hleft⟩⟩
      | false =>
        have hheap₁ := hheap.succ (.inl hc) hx hy hleft
        rw [if_neg (by simp)]
        by_cases hend : c + 1 = l.length
        · rw [if_pos hend]
          exact ⟨c + 1, rfl, by omega, hheap₁, fun h => by omega⟩
        · have hright : c + 1 < l.length := by omega
          have hz := List.getElem?_eq_getElem hright
          have hchild : IsChild p (c + 1) := .inr (by omega)
          rw [if_neg hend, exec_bind_ok, deref_eq hright, exec_bind_ok]
          cases hlt : pred (proj l[p]) (proj l[c + 1]) with
          | true =>
            rw [if_pos rfl]
            exact ⟨c + 1, rfl, by omega, hheap₁, fun _ => ⟨p, _, _, hchild, hx, hz, hlt⟩⟩
          | false =>
            have hheap₂ := hheap₁.succ hchild hx hz hlt
            rw [if_neg (by simp)]
            exact ih rfl hp (by rwa [show 2 * (p + 1) + 1 = c + 1 + 1 by omega]) (by omega)
    · rw [if_neg hmore]
      refine ⟨l.length, rfl, Nat.le_refl _, ?_, fun h => absurd h (Nat.lt_irrefl _)⟩
      intro q c' x y hc'
      exact hheap q c' x y (by omega)

/-- The longest prefix that is a heap. -/
theorem isHeapUntil_spec (pred : κ → κ → Bool) (proj : α → κ) (l : List α) :
    ∃ n, isHeapUntil pred proj l = .ok n ∧ n ≤ l.length ∧
      HeapFrom (projected pred proj) 0 (l.take n) ∧
      ∀ m, n < m → m ≤ l.length → ¬ HeapFrom (projected pred proj) 0 (l.take m) := by
  have hstart : HeapUpTo (projected pred proj) 1 l := by
    intro p c x y hc hchild
    have := hchild.lt
    omega
  obtain ⟨n, hrun, hle, hheap, hbad⟩ := isHeapUntilLoop_spec (l.length + 1) rfl
    (Nat.zero_le _) hstart (Nat.lt_succ_self _)
  refine ⟨n, hrun, hle, heapFrom_take_iff.mpr hheap, fun m hn hm htake => ?_⟩
  obtain ⟨q, x, y, hchild, hx, hy, hxy⟩ := hbad (by omega)
  have := heapFrom_take_iff.mp htake q n x y hn hchild hx hy
  rw [hxy] at this
  cases this

theorem isHeap_spec (pred : κ → κ → Bool) (proj : α → κ) (l : List α) :
    ∃ b, isHeap pred proj l = .ok b ∧ (b = true ↔ HeapFrom (projected pred proj) 0 l) := by
  obtain ⟨n, hrun, hle, hheap, hlongest⟩ := isHeapUntil_spec pred proj l
  refine ⟨decide (n = l.length), ?_, ?_⟩
  · rw [isHeapUntil] at hrun
    rw [isHeap, isHeapN, hrun, exec_bind_ok]
  · rw [decide_eq_true_iff]
    constructor
    · intro hn
      rwa [hn, List.take_length] at hheap
    · intro hl
      by_contra hne
      rw [← List.take_length (l := l)] at hl
      exact hlongest l.length (by omega) (Nat.le_refl _) hl

/-! ## Rising -/

/-- With `v` put in the hole the list is a heap but for it, and each turn moves it up. -/
theorem siftUpLoop_spec (h : StrictWeakOrder pred) (fuel : Nat) {l : List α} {last len : Nat}
    {v x : α} (hunder : HeapUnder (projected pred proj) last (l.set last v))
    (hchild : IsChild len last) (hlast : last < l.length) (hx : l[len]? = some x)
    (hxv : projected pred proj x v = true) (hfuel : last ≤ fuel) :
    ∃ r, siftUpLoop pred proj v fuel l last len = .ok r ∧ (l.set last v).Perm r ∧
      HeapFrom (projected pred proj) 0 r := by
  have hproj := h.projected proj
  induction fuel generalizing l last len x with
  | zero =>
    have := hchild.lt
    omega
  | succ fuel ih =>
    have hlt := hchild.lt
    have hlen' : (l.set last x).length = l.length := List.length_set
    have hat : (l.set last v)[last]? = some v := List.getElem?_set_self hlast
    have hat_parent : (l.set last v)[len]? = some x := by
      rw [List.getElem?_set_ne (by omega), hx]
    have hswap := hunder.swap hproj hchild hat_parent hat hxv
    have hperm := perm_swap hat hat_parent
    rw [List.set_set] at hswap hperm
    have hput : assign (l.set last x) len v = .ok ((l.set last x).set len v) :=
      assign_eq (by omega) v
    rw [siftUpLoop]
    dsimp only
    rw [deref_of_some hx, exec_bind_ok, assign_eq hlast, exec_bind_ok]
    by_cases hroot : len = 0
    · rw [if_pos hroot, hput]
      refine ⟨_, rfl, hperm, hswap.heapFrom fun p _ _ hp _ _ => ?_⟩
      have := hp.lt
      omega
    · have hparent := exists_parent (Nat.pos_of_ne_zero hroot)
      have hplt := hparent.lt
      have hpos : (len - 1) / 2 < (l.set last x).length := by omega
      have hy := List.getElem?_eq_getElem hpos
      rw [if_neg hroot, deref_eq hpos, exec_bind_ok]
      cases hstop : pred (proj (l.set last x)[(len - 1) / 2]) (proj v) with
      | true =>
        rw [if_pos rfl]
        obtain ⟨r, hrun, hperm', hheap⟩ := ih hswap hparent (by omega) hy hstop (by omega)
        exact ⟨r, hrun, hperm.trans hperm', hheap⟩
      | false =>
        rw [if_neg (by simp), hput]
        refine ⟨_, rfl, hperm, hswap.heapFrom fun p y w hp hy' hw => ?_⟩
        obtain rfl := hp.unique hparent
        rw [List.getElem?_set_ne (by omega), hy, Option.some.injEq] at hy'
        rw [List.getElem?_set_self (by omega), Option.some.injEq] at hw
        rw [← hy', ← hw]
        exact hstop

/-- The element behind a heap rises to its place in it. -/
theorem pushHeap_append (h : StrictWeakOrder pred) {l : List α} (v : α)
    (hheap : HeapFrom (projected pred proj) 0 l) :
    ∃ r, pushHeap pred proj (l ++ [v]) = .ok r ∧ (l ++ [v]).Perm r ∧
      HeapFrom (projected pred proj) 0 r := by
  have hunder := HeapUnder.of_append hheap v
  have hlen : (l ++ [v]).length = l.length + 1 := by
    rw [List.length_append, List.length_singleton]
  rw [pushHeap, siftUpN]
  by_cases hshort : l = []
  · subst hshort
    exact ⟨[v], rfl, .refl _, heapFrom_half _ (by simp)⟩
  · have hpos := List.length_pos_of_ne_nil hshort
    have hparent := exists_parent hpos
    have hsub : (l ++ [v]).length - 2 = l.length - 1 := by omega
    have hlast : (l ++ [v]).length - 1 = l.length := by omega
    have hlt : (l.length - 1) / 2 < (l ++ [v]).length := by omega
    have hx := List.getElem?_eq_getElem hlt
    have hv : (l ++ [v])[l.length]? = some v := List.getElem?_concat_length
    have hself : (l ++ [v]).set l.length v = l ++ [v] := by simp
    rw [if_pos (by omega)]
    dsimp only
    rw [hsub, deref_eq hlt, exec_bind_ok, hlast, deref_of_some hv, exec_bind_ok]
    cases hrise : pred (proj (l ++ [v])[(l.length - 1) / 2]) (proj v) with
    | true =>
      rw [if_pos rfl]
      rw [← hself] at hunder
      have hloop := siftUpLoop_spec h (l ++ [v]).length hunder hparent (by omega) hx hrise
        (by omega)
      rwa [hself] at hloop
    | false =>
      rw [if_neg (by simp)]
      refine ⟨l ++ [v], rfl, .refl _, hunder.heapFrom fun p y w hp hy hw => ?_⟩
      obtain rfl := hp.unique hparent
      rw [hx, Option.some.injEq] at hy
      rw [hv, Option.some.injEq] at hw
      rw [← hy, ← hw]
      exact hrise

theorem pushHeap_spec (h : StrictWeakOrder pred) {l : List α}
    (hheap : HeapFrom (projected pred proj) 0 l.dropLast) :
    ∃ r, pushHeap pred proj l = .ok r ∧ l.Perm r ∧ HeapFrom (projected pred proj) 0 r := by
  by_cases hnil : l = []
  · subst hnil
    exact ⟨[], rfl, .refl _, hheap⟩
  · have hpush := pushHeap_append h (l.getLast hnil) hheap
    rwa [List.dropLast_append_getLast hnil] at hpush

/-- The last element is not less than any other, and in front of it is a heap. -/
theorem popHeap_spec (h : StrictWeakOrder pred) {l : List α}
    (hheap : HeapFrom (projected pred proj) 0 l) :
    ∃ r, popHeap pred proj l = .ok r ∧ l.Perm r ∧
      HeapFrom (projected pred proj) 0 r.dropLast ∧
      ∀ x, r.getLast? = some x → ∀ y ∈ l, projected pred proj x y = false := by
  cases l with
  | nil => exact ⟨[], rfl, .refl _, hheap, fun x hx => by cases hx⟩
  | cons x l =>
    obtain ⟨r, hrun, hperm, hr⟩ := popHeapN_spec h hheap
    have hroot := hheap.root (h.projected proj)
    refine ⟨r ++ [x], hrun, ?_, by rwa [List.dropLast_concat], fun y hy => ?_⟩
    · exact (hperm.cons x).trans (List.perm_append_singleton x r).symm
    · rw [List.getLast?_concat, Option.some.injEq] at hy
      rw [← hy]
      exact hroot

/-! ## The heap law -/

end EARanges.Algorithm
