import EARanges.Algorithm.Heap
import EARanges.Support.Selection

/-!
# `partial_sort` and `partial_sort_copy`

algorithm/partial_sort_copy.hpp, and algorithm/partial_sort.hpp for every `middle`. The
input of `partial_sort_copy` is the list of what is left to read, its output the cells of
the output range. An element is written through the conversion `conv` to the output's
value type.
-/
namespace EARanges.Algorithm
open EARanges.Support

variable {α β κ : Type}

section
variable (pred : κ → κ → Bool) (inProj : α → κ) (outProj : β → κ) (conv : α → β)

/-- `for(; first != last && r != out_end; ++first, ++r) *r = *first`; returns what is left
to read, the output and `r`. -/
def copyToOutput (out : List β) : List α → Nat → Exec (List α × List β × Nat)
  | [], r => .ok ([], out, r)
  | x :: input, r =>
    if r = out.length then .ok (x :: input, out, r)
    else do
      let out ← assign out r (conv x)
      copyToOutput out input (r + 1)

/-- The second loop of `partial_sort_copy`, over what is left to read. -/
def replaceRootLoop (r : Nat) (out : List β) : List α → Exec (List β)
  | [] => .ok out
  | x :: input => do
    let y ← deref out 0
    if pred (inProj x) (outProj y) then do
      let out ← assign out 0 (conv x)
      let out ← onRange out 0 r fun l => siftDownN pred outProj l 0
      replaceRootLoop r out input
    else replaceRootLoop r out input

def partialSortCopy (input : List α) (out : List β) : Exec (List β × Nat) :=
  let r := 0
  if r ≠ out.length then do
    let (input, out, r) ← copyToOutput conv out input r
    let out ← onRange out 0 r (makeHeap pred outProj)
    let out ← replaceRootLoop pred inProj outProj conv r out input
    let out ← onRange out 0 r (sortHeap pred outProj)
    .ok (out, r)
  else .ok (out, r)

end

variable {pred : κ → κ → Bool} {inProj : α → κ} {outProj : β → κ} {conv : α → β}

/-! ## `partial_sort` with nothing in front of `middle` -/

theorem onRange_empty (f : List β → Exec (List β)) (hf : f [] = .ok []) (l : List β) :
    onRange l 0 0 f = .ok l :=
  onRange_append (p := []) (q := l) rfl rfl hf

/-- The loop then exchanges elements and sinks nothing. -/
theorem partialSortLoop_zero (pred : κ → κ → Bool) (proj : β → κ) (count : Nat) {l : List β}
    {i : Nat} (hend : i + count = l.length) :
    ∃ r, partialSortLoop pred proj 0 l count i = .ok (r, l.length) ∧ l.Perm r := by
  induction count generalizing l i with
  | zero => exact ⟨l, by rw [partialSortLoop, ← hend, Nat.add_zero], .refl l⟩
  | succ count ih =>
    have hi : i < l.length := by omega
    have hzero : 0 < l.length := by omega
    have hx := List.getElem?_eq_getElem hi
    have hy := List.getElem?_eq_getElem hzero
    rw [partialSortLoop, deref_eq hi, exec_bind_ok, deref_eq hzero, exec_bind_ok]
    cases pred (proj l[i]) (proj l[0]) with
    | false =>
      rw [if_neg (by simp)]
      exact ih (by omega)
    | true =>
      have hperm := perm_swap hx hy
      obtain ⟨r, hrun, hperm'⟩ := ih (l := (l.set i l[0]).set 0 l[i]) (i := i + 1)
        (by rw [← hperm.length_eq]; omega)
      have hsift := onRange_empty (fun l => siftDownN pred proj l 0) rfl
        ((l.set i l[0]).set 0 l[i])
      rw [if_pos rfl, iterSwap_eq hx hy, exec_bind_ok, hsift, exec_bind_ok, hperm.length_eq]
      exact ⟨r, hrun, hperm.trans hperm'⟩

/-- `partial_sort` leaves the `middle` least elements sorted in front, for every `middle`. -/
theorem partialSort_correct (h : StrictWeakOrder pred) (proj : β → κ) {l : List β} {middle : Nat}
    (hle : middle ≤ l.length) :
    ∃ a b, partialSort pred proj l middle = .ok (a ++ b, l.length) ∧ a.length = middle ∧
      l.Perm (a ++ b) ∧ Sorted (projected pred proj) a ∧ NotAbove (projected pred proj) a b := by
  rcases Nat.eq_zero_or_pos middle with rfl | hpos
  · obtain ⟨r, hloop, hperm⟩ := partialSortLoop_zero pred proj l.length (Nat.zero_add l.length)
    have hmake := onRange_empty (makeHeap pred proj) rfl l
    have hsort := onRange_empty (sortHeap pred proj) rfl r
    have hrun : partialSort pred proj l 0 = .ok (r, l.length) := by
      rw [partialSort, hmake, exec_bind_ok, Nat.sub_zero, hloop, exec_bind_ok]
      dsimp only
      rw [hsort, exec_bind_ok]
    exact ⟨[], r, hrun, rfl, hperm, .nil, fun a ha => absurd ha List.not_mem_nil⟩
  · exact partialSort_spec h proj hpos hle

/-! ## `partial_sort_copy` -/

theorem copyToOutput_spec (conv : α → β) (a c : List β) (input : List α) :
    copyToOutput conv (a ++ c) input a.length =
      .ok (input.drop c.length, a ++ (input.take c.length).map conv ++ c.drop input.length,
        a.length + min c.length input.length) := by
  induction input generalizing a c with
  | nil => simp [copyToOutput]
  | cons x input ih =>
    rw [copyToOutput]
    cases c with
    | nil => simp
    | cons y c =>
      have hnext := ih (a ++ [conv x]) c
      simp only [List.append_assoc, List.singleton_append, List.length_append,
        List.length_singleton] at hnext
      rw [if_neg (by simp), assign_append, exec_bind_ok, hnext]
      simp only [List.length_cons, List.drop_succ_cons, List.take_succ_cons, List.map_cons,
        List.append_assoc, List.cons_append, Nat.add_min_add_right, Nat.add_assoc,
        Nat.add_comm 1]

/-- The heap keeps the least elements read so far; `c` are those it has dropped. -/
theorem replaceRootLoop_spec (h : StrictWeakOrder pred)
    (hconv : ∀ x y, pred (inProj x) (outProj y) = pred (outProj (conv x)) (outProj y))
    {a c : List β} (ha : a ≠ []) (hheap : HeapFrom (projected pred outProj) 0 a)
    (hac : NotAbove (projected pred outProj) a c) (rest : List β) (input : List α) :
    ∃ a' c', replaceRootLoop pred inProj outProj conv a.length (a ++ rest) input =
        .ok (a' ++ rest) ∧ a'.length = a.length ∧
      (a ++ c ++ input.map conv).Perm (a' ++ c') ∧ HeapFrom (projected pred outProj) 0 a' ∧
      NotAbove (projected pred outProj) a' c' := by
  have hproj := h.projected outProj
  induction input generalizing a c with
  | nil => exact ⟨a, c, rfl, rfl, by simp, hheap, hac⟩
  | cons z input ih =>
    obtain ⟨x, l, rfl⟩ := List.exists_cons_of_ne_nil ha
    have hread : deref (x :: l ++ rest) 0 = .ok x := rfl
    rw [replaceRootLoop, hread, exec_bind_ok, hconv]
    cases hlt : pred (outProj (conv z)) (outProj x) with
    | false =>
      have hacz := notAbove_concat hproj hheap hac hlt
      obtain ⟨a', c', hrun, hlen, hperm, hheap', hac'⟩ := ih ha hheap hacz
      rw [if_neg (by simp)]
      refine ⟨a', c', hrun, hlen, ?_, hheap', hac'⟩
      simpa only [List.map_cons, List.append_assoc, List.singleton_append] using hperm
    | true =>
      have hwrite : assign (x :: l ++ rest) 0 (conv z) = .ok (conv z :: l ++ rest) :=
        assign_append [] x (conv z) (l ++ rest)
      obtain ⟨r, hsift, hpermr, hr, hrc⟩ := siftDownN_replaced h hheap hac hlt
      have hlenr : r.length = (x :: l).length := by
        rw [← hpermr.length_eq]
        rfl
      have hrange : onRange (conv z :: l ++ rest) 0 (x :: l).length
          (fun l => siftDownN pred outProj l 0) = .ok (r ++ rest) :=
        onRange_append (p := []) rfl (Nat.zero_add _).symm hsift
      obtain ⟨a', c', hrun, hlen, hperm, hheap', hac'⟩ :=
        ih (List.ne_nil_of_length_pos (by rw [hlenr]; simp)) hr hrc
      rw [if_pos rfl, hwrite, exec_bind_ok, hrange, exec_bind_ok, ← hlenr]
      refine ⟨a', c', hrun, hlen, ?_, hheap', hac'⟩
      -- what is read goes to the heap, and the old root to what is dropped
      have hmove : (x :: l ++ c ++ (z :: input).map conv).Perm
          (conv z :: (x :: l ++ c ++ input.map conv)) := List.perm_middle
      have hswap : (conv z :: (x :: l ++ c ++ input.map conv)).Perm
          (x :: (conv z :: l ++ c ++ input.map conv)) := .swap ..
      have hdrop : (x :: (conv z :: l ++ c ++ input.map conv)).Perm
          (conv z :: l ++ c ++ x :: input.map conv) := List.perm_middle.symm
      have hsunk := ((hpermr.append_right c).append_right (x :: input.map conv))
      have hall := ((hmove.trans hswap).trans hdrop).trans hsunk
      have hlist : r ++ c ++ x :: input.map conv = r ++ (c ++ [x]) ++ input.map conv := by simp
      rw [hlist] at hall
      exact hall.trans hperm

/-- What happens to the cells written once the output is full or the input read. -/
theorem heapPhases_spec (h : StrictWeakOrder pred)
    (hconv : ∀ x y, pred (inProj x) (outProj y) = pred (outProj (conv x)) (outProj y))
    {front : List β} (hne : front ≠ []) (rest : List β) (input : List α) :
    ∃ out₁ out₂ s, onRange (front ++ rest) 0 front.length (makeHeap pred outProj) = .ok out₁ ∧
      replaceRootLoop pred inProj outProj conv front.length out₁ input = .ok out₂ ∧
      onRange out₂ 0 front.length (sortHeap pred outProj) = .ok (s ++ rest) ∧
      s.length = front.length ∧
      Smallest (projected pred outProj) (front ++ input.map conv) s := by
  obtain ⟨a₁, hmake, hperm₁, hheap₁⟩ := makeHeap_spec h outProj front
  have hne₁ : a₁ ≠ [] := List.ne_nil_of_length_pos (by
    rw [← hperm₁.length_eq]
    exact List.length_pos_of_ne_nil hne)
  have hnil : NotAbove (projected pred outProj) a₁ [] := fun _ _ _ hb =>
    absurd hb List.not_mem_nil
  obtain ⟨a₂, c, hloop, hlen₂, hperm₂, hheap₂, hac⟩ := replaceRootLoop_spec h hconv hne₁ hheap₁
    hnil rest input
  obtain ⟨s, hsort, hperm, hsorted⟩ := sortHeap_spec h hheap₂
  rw [← hperm₁.length_eq] at hloop hlen₂
  rw [List.append_nil] at hperm₂
  have hmake' : onRange (front ++ rest) 0 front.length (makeHeap pred outProj) =
      .ok (a₁ ++ rest) := onRange_append (p := []) rfl (Nat.zero_add _).symm hmake
  have hsort' : onRange (a₂ ++ rest) 0 front.length (sortHeap pred outProj) = .ok (s ++ rest) :=
    onRange_append (p := []) rfl (hlen₂.symm.trans (Nat.zero_add _).symm) hsort
  have hall := ((hperm₁.append_right _).trans hperm₂).trans (hperm.append_right c)
  exact ⟨_, _, s, hmake', hloop, hsort', hperm.length_eq.symm.trans hlen₂, hsorted, c, hall,
    fun x hx y hy => hac x (hperm.mem_iff.mpr hx) y hy⟩

/-- The cells written are the least elements of the input in order, as many as there is
room for, and the cells behind them are as before. -/
theorem partialSortCopy_spec (h : StrictWeakOrder pred) (inProj : α → κ) (outProj : β → κ)
    (conv : α → β)
    (hconv : ∀ x y, pred (inProj x) (outProj y) = pred (outProj (conv x)) (outProj y))
    (input : List α) (out : List β) :
    ∃ s, partialSortCopy pred inProj outProj conv input out =
        .ok (s ++ out.drop s.length, s.length) ∧ s.length = min out.length input.length ∧
      Smallest (projected pred outProj) (input.map conv) s := by
  have hcopy := copyToOutput_spec conv [] out input
  simp only [List.nil_append, List.length_nil, Nat.zero_add] at hcopy
  generalize hfront : (input.take out.length).map conv = front at hcopy
  have hlen : front.length = min out.length input.length := by
    rw [← hfront, List.length_map, List.length_take]
  have hrest : out.drop input.length = out.drop front.length := by
    rw [hlen]
    rcases Nat.le_total out.length input.length with hle | hle
    · rw [Nat.min_eq_left hle, List.drop_length, List.drop_eq_nil_of_le hle]
    · rw [Nat.min_eq_right hle]
  have hinput : input.map conv = front ++ (input.drop out.length).map conv := by
    rw [← hfront, ← List.map_append, List.take_append_drop]
  rw [← hlen, hrest] at hcopy
  rw [← hlen, partialSortCopy]
  dsimp only
  by_cases hnone : front = []
  · -- nothing is written: there is no room, or nothing to read
    subst hnone
    refine ⟨[], ?_, rfl, .nil, input.map conv, .refl _, fun a ha => absurd ha List.not_mem_nil⟩
    split
    next hroom =>
      obtain rfl : input = [] := by
        apply List.length_eq_zero_iff.mp
        rw [List.length_nil] at hlen
        omega
      have hmake := onRange_empty (makeHeap pred outProj) rfl out
      have hsort := onRange_empty (sortHeap pred outProj) rfl out
      rw [List.drop_nil] at hcopy
      rw [hcopy, exec_bind_ok]
      simp only [List.length_nil, List.drop_zero, List.nil_append]
      rw [hmake, exec_bind_ok, replaceRootLoop, exec_bind_ok, hsort, exec_bind_ok]
    next => rfl
  · have hpos := List.length_pos_of_ne_nil hnone
    obtain ⟨out₁, out₂, s, hmake, hloop, hsort, hlens, hs⟩ := heapPhases_spec h hconv hnone
      (out.drop front.length) (input.drop out.length)
    rw [← hinput] at hs
    refine ⟨s, ?_, hlens, hs⟩
    rw [if_pos (by omega), hcopy, exec_bind_ok]
    dsimp only
    rw [hmake, exec_bind_ok, hloop, exec_bind_ok, hsort, exec_bind_ok, hlens]

/-- Copying the input, sorting it partially and keeping what there is room for. -/
def copyPartialSort (pred : κ → κ → Bool) (proj : β → κ) (l : List β) (room : Nat) :
    Exec (List β) := do
  let (l, _) ← partialSort pred proj l (min room l.length)
  .ok (l.take room)

theorem copyPartialSort_spec (h : StrictWeakOrder pred) (proj : β → κ) (l : List β) (room : Nat) :
    ∃ s, copyPartialSort pred proj l room = .ok s ∧ s.length = min room l.length ∧
      Smallest (projected pred proj) l s := by
  obtain ⟨a, b, hrun, hlen, hperm, hsorted, habove⟩ :=
    partialSort_correct h proj (Nat.min_le_right room l.length)
  have htake : (a ++ b).take room = a := by
    have hlength := hperm.length_eq
    rw [List.length_append] at hlength
    rcases Nat.le_total room l.length with hle | hle
    · rw [List.take_left' (by omega)]
    · have hb : b = [] := List.length_eq_zero_iff.mp (by omega)
      rw [hb, List.append_nil, List.take_of_length_le (by omega)]
  refine ⟨a, ?_, hlen, hsorted, b, hperm, habove⟩
  rw [copyPartialSort, hrun, exec_bind_ok]
  dsimp only
  rw [htake]

/-- `partial_sort` for every `middle`, and `partial_sort_copy` for every input and every
output: they agree up to equivalence of elements. -/
theorem partialSortCopy_correct (h : StrictWeakOrder pred) (proj : β → κ) :
    (∀ (l : List β) (middle : Nat), middle ≤ l.length →
      ∃ a b, partialSort pred proj l middle = .ok (a ++ b, l.length) ∧ a.length = middle ∧
        l.Perm (a ++ b) ∧ Sorted (projected pred proj) a ∧
        NotAbove (projected pred proj) a b) ∧
    ∀ (conv : α → β) (input : List α) (out : List β),
      ∃ s, partialSortCopy pred (fun x => proj (conv x)) proj conv input out =
          .ok (s ++ out.drop s.length, s.length) ∧
        s.length = min out.length input.length ∧
        Smallest (projected pred proj) (input.map conv) s ∧
        ∃ s', copyPartialSort pred proj (input.map conv) out.length = .ok s' ∧
          List.Forall₂ (Equivalent (projected pred proj)) s s' := by
  refine ⟨fun l middle hle => partialSort_correct h proj hle, fun conv input out => ?_⟩
  obtain ⟨s, hrun, hlen, hs⟩ := partialSortCopy_spec h (fun x => proj (conv x)) proj conv
    (fun _ _ => rfl) input out
  obtain ⟨s', hrun', hlen', hs'⟩ := copyPartialSort_spec h proj (input.map conv) out.length
  rw [List.length_map] at hlen'
  exact ⟨s, hrun, hlen, hs, s', hrun', hs.equivalent (h.projected proj) hs' (hlen.trans hlen'.symm)⟩

theorem partialSortCopy_correct_pairs :
    (∃ a b, partialSort (fun a b : Nat => decide (a < b)) (fun x : Nat × Nat => x.1)
        [(3, 0), (1, 0), (2, 0), (1, 1)] 2 = .ok (a ++ b, 4) ∧ a.length = 2) ∧
    ∃ s, partialSortCopy (fun a b : Nat => decide (a < b)) (fun x : Nat × Nat => x.1) Prod.fst id
        [(3, 0), (1, 0), (2, 0), (1, 1)] [(9, 9), (9, 9)] =
          .ok (s ++ [(9, 9), (9, 9)].drop s.length, s.length) ∧
      s.length = 2 ∧
      Smallest (projected (fun a b : Nat => decide (a < b)) Prod.fst)
        [(3, 0), (1, 0), (2, 0), (1, 1)] s := by
  have hlaw := partialSortCopy_correct (α := Nat × Nat) (β := Nat × Nat) (.of_linearOrder Nat)
    Prod.fst
  obtain ⟨a, b, hsort, ha, _⟩ := hlaw.1 [(3, 0), (1, 0), (2, 0), (1, 1)] 2 (by decide)
  obtain ⟨s, hrun, hlen, hs, _⟩ := hlaw.2 id [(3, 0), (1, 0), (2, 0), (1, 1)] [(9, 9), (9, 9)]
  exact ⟨⟨a, b, hsort, ha⟩, s, hrun, hlen, hs⟩

end EARanges.Algorithm
