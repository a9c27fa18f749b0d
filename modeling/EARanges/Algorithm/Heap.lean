import EARanges.Support.InPlace
import EARanges.Support.HeapOrder

/-!
# Heaps

algorithm/heap_algorithm.hpp, `sift_down_n`, `pop_heap_n`, `make_heap`, `sort_heap`, and
algorithm/partial_sort.hpp. A heap of `len` elements is the list of them. The iterators
`make_heap` and `sort_heap` return, which are `first + len`, are left out.
-/
namespace EARanges.Algorithm
open EARanges.Support

variable {α κ : Type}

section
variable (pred : κ → κ → Bool) (proj : α → κ)

/-- `child` or `child + 1`, if that exists and is greater. -/
def greaterChild (l : List α) (child : Nat) : Exec Nat :=
  if child + 1 < l.length then do
    let x ← deref l child
    let y ← deref l (child + 1)
    if pred (proj x) (proj y) then .ok (child + 1) else .ok child
  else .ok child

/-- The `do` loop of `sift_down_n`. -/
def siftDownLoop (top : α) : Nat → List α → Nat → Nat → Exec (List α)
  | 0, _, _, _ => .error .fuel
  | fuel + 1, l, start, child => do
    let x ← deref l child
    let l ← assign l start x
    let start := child
    if (l.length - 2) / 2 < child then assign l start top
    else do
      let child ← greaterChild pred proj l (2 * child + 1)
      let y ← deref l child
      if pred (proj y) (proj top) then assign l start top
      else siftDownLoop top fuel l start child

def siftDownN (l : List α) (start : Nat) : Exec (List α) :=
  if l.length < 2 ∨ (l.length - 2) / 2 < start then .ok l
  else do
    let child ← greaterChild pred proj l (2 * start + 1)
    let y ← deref l child
    let top ← deref l start
    if pred (proj y) (proj top) then .ok l
    else siftDownLoop pred proj top l.length l start child

def popHeapN (l : List α) : Exec (List α) :=
  let len := l.length
  if 1 < len then do
    let l ← iterSwap l 0 (len - 1)
    onRange l 0 (len - 1) fun l => siftDownN pred proj l 0
  else .ok l

/-- `for(; start >= 0; --start)`, with `start + 1` counted down. -/
def makeHeapLoop (l : List α) : Nat → Exec (List α)
  | 0 => .ok l
  | start + 1 => do
    let l ← siftDownN pred proj l start
    makeHeapLoop l start

def makeHeap (l : List α) : Exec (List α) :=
  if 1 < l.length then makeHeapLoop pred proj l ((l.length - 2) / 2 + 1) else .ok l

def sortHeapLoop (l : List α) : Nat → Exec (List α)
  | 0 => .ok l
  | i + 1 =>
    if 1 < i + 1 then do
      let l ← onRange l 0 (i + 1) (popHeapN pred proj)
      sortHeapLoop l i
    else .ok l

def sortHeap (l : List α) : Exec (List α) := sortHeapLoop pred proj l l.length

/-- `for(; i != last; ++i)` of `partial_sort`, `count` steps from `i`. -/
def partialSortLoop (middle : Nat) (l : List α) : Nat → Nat → Exec (List α × Nat)
  | 0, i => .ok (l, i)
  | count + 1, i => do
    let y ← deref l i
    let x ← deref l 0
    if pred (proj y) (proj x) then do
      let l ← iterSwap l i 0
      let l ← onRange l 0 middle fun l => siftDownN pred proj l 0
      partialSortLoop middle l count (i + 1)
    else partialSortLoop middle l count (i + 1)

def partialSort (l : List α) (middle : Nat) : Exec (List α × Nat) := do
  let l ← onRange l 0 middle (makeHeap pred proj)
  let (l, i) ← partialSortLoop pred proj middle l (l.length - middle) middle
  let l ← onRange l 0 middle (sortHeap pred proj)
  .ok (l, i)

end

variable {pred : κ → κ → Bool} {proj : α → κ}

/-! ## Sinking -/

theorem greaterChild_spec (h : StrictWeakOrder pred) (proj : α → κ) {l : List α} {p : Nat}
    (hp : 2 * p + 1 < l.length) :
    ∃ c y, greaterChild pred proj l (2 * p + 1) = .ok c ∧ IsChild p c ∧ l[c]? = some y ∧
      ∀ c' z, IsChild p c' → l[c']? = some z → projected pred proj y z = false := by
  have hproj := h.projected proj
  have hx := List.getElem?_eq_getElem hp
  rw [greaterChild]
  by_cases hright : 2 * p + 1 + 1 < l.length
  · have hy := List.getElem?_eq_getElem hright
    rw [if_pos hright, deref_eq hp, exec_bind_ok, deref_eq hright, exec_bind_ok]
    cases hlt : pred (proj l[2 * p + 1]) (proj l[2 * p + 1 + 1]) with
    | true =>
      refine ⟨2 * p + 1 + 1, _, rfl, .inr rfl, hy, fun c' z hc' hz => ?_⟩
      obtain rfl | rfl := hc'
      · rw [← eq_of_read hz hx]
        exact hproj.asymm hlt
      · rw [← eq_of_read hz hy]
        exact hproj.not_self _
    | false =>
      refine ⟨2 * p + 1, _, rfl, .inl rfl, hx, fun c' z hc' hz => ?_⟩
      obtain rfl | rfl := hc'
      · rw [← eq_of_read hz hx]
        exact hproj.not_self _
      · rw [← eq_of_read hz hy]
        exact hlt
  · rw [if_neg hright]
    refine ⟨2 * p + 1, _, rfl, .inl rfl, hx, fun c' z hc' hz => ?_⟩
    obtain rfl | rfl := hc'
    · rw [← eq_of_read hz hx]
      exact hproj.not_self _
    · have := (List.getElem?_eq_some_iff.mp hz).1
      omega

/-- With `top` put in place the list is a heap but for it, and each turn moves it down. -/
theorem siftDownLoop_spec (h : StrictWeakOrder pred) (fuel : Nat) {l : List α}
    {start child s : Nat} {top y : α}
    (hbut : HeapBut (projected pred proj) s start (l.set start top)) (hs : s ≤ start)
    (hchild : IsChild start child) (hy : l[child]? = some y)
    (hmax : ∀ c z, IsChild start c → l[c]? = some z → projected pred proj y z = false)
    (htop : projected pred proj y top = false) (hfuel : l.length ≤ fuel + start) :
    ∃ r, siftDownLoop pred proj top fuel l start child = .ok r ∧ (l.set start top).Perm r ∧
      HeapFrom (projected pred proj) s r := by
  have hproj := h.projected proj
  have hlt := hchild.lt
  have hlen := (List.getElem?_eq_some_iff.mp hy).1
  have hstart : start < l.length := by omega
  induction fuel generalizing l start child y with
  | zero => omega
  | succ fuel ih =>
    have hat : (l.set start top)[start]? = some top := List.getElem?_set_self hstart
    have hrest (c : Nat) (hc : start < c) : (l.set start top)[c]? = l[c]? :=
      List.getElem?_set_ne (by omega)
    have hat_child : (l.set start top)[child]? = some y := by rw [hrest child hlt, hy]
    have hswap := hbut.swap hs hchild hat hat_child
      (fun c z hc hz => hmax c z hc (by rwa [hrest c hc.lt] at hz)) htop
    have hperm := perm_swap hat hat_child
    rw [List.set_set] at hswap hperm
    have hlen' : (l.set start y).length = l.length := List.length_set
    have hread : deref l child = .ok y := by rw [deref, hy]
    have hput : assign (l.set start y) child top = .ok ((l.set start y).set child top) :=
      assign_eq (by rw [hlen']; exact hlen) top
    rw [siftDownLoop, hread, exec_bind_ok, assign_eq hstart, exec_bind_ok, hlen']
    dsimp only
    by_cases hleaf : (l.length - 2) / 2 < child
    · -- no children are left
      rw [if_pos hleaf, hput]
      refine ⟨_, rfl, hperm, hswap.heapFrom fun c _ z hc _ hz => ?_⟩
      have := (List.getElem?_eq_some_iff.mp hz).1
      rw [List.length_set, hlen'] at this
      obtain rfl | rfl := hc <;> omega
    · obtain ⟨c, z, hrun, hc, hz, hmaxc⟩ := greaterChild_spec h proj
        (l := l.set start y) (p := child) (by omega)
      have hclt := hc.lt
      have hunset (i : Nat) (hi : child < i) :
          ((l.set start y).set child top)[i]? = (l.set start y)[i]? :=
        List.getElem?_set_ne (by omega)
      have hreadc : deref (l.set start y) c = .ok z := by rw [deref, hz]
      rw [if_neg hleaf, hrun, exec_bind_ok, hreadc, exec_bind_ok]
      cases hstop : pred (proj z) (proj top) with
      | true =>
        -- the greater child is less than the element
        rw [if_pos rfl, hput]
        refine ⟨_, rfl, hperm, hswap.heapFrom fun i t w hi ht hw => ?_⟩
        rw [List.getElem?_set_self (by omega), Option.some.injEq] at ht
        rw [hunset i hi.lt] at hw
        rw [← ht]
        exact hproj.not_lt_trans (hmaxc i w hi hw) (hproj.asymm hstop)
      | false =>
        rw [if_neg (by simp)]
        obtain ⟨r, hloop, hperm', hheap⟩ := ih hswap (by omega) hc hz hmaxc hstop (by omega) hclt
          (List.getElem?_eq_some_iff.mp hz).1 (by omega)
        exact ⟨r, hloop, hperm.trans hperm', hheap⟩

/-- The heap grows to the front by one position. -/
theorem siftDownN_spec (h : StrictWeakOrder pred) {l : List α} {s : Nat}
    (hheap : HeapFrom (projected pred proj) (s + 1) l) :
    ∃ r, siftDownN pred proj l s = .ok r ∧ l.Perm r ∧ HeapFrom (projected pred proj) s r := by
  have hproj := h.projected proj
  rw [siftDownN]
  by_cases hleaf : l.length < 2 ∨ (l.length - 2) / 2 < s
  · rw [if_pos hleaf]
    exact ⟨l, rfl, .refl l, heapFrom_half _ (by omega)⟩
  · obtain ⟨c, y, hrun, hc, hy, hmax⟩ := greaterChild_spec h proj (l := l) (p := s) (by omega)
    have hs : s < l.length := by omega
    have htop := List.getElem?_eq_getElem hs
    have hready : deref l c = .ok y := by rw [deref, hy]
    rw [if_neg hleaf, hrun, exec_bind_ok, hready, exec_bind_ok, deref_eq hs, exec_bind_ok]
    cases hstop : pred (proj y) (proj l[s]) with
    | true =>
      rw [if_pos rfl]
      refine ⟨l, rfl, .refl l, (HeapBut.of_heapFrom hheap).heapFrom fun i t w hi ht hw => ?_⟩
      rw [← eq_of_read ht htop]
      exact hproj.not_lt_trans (hmax i w hi hw) (hproj.asymm hstop)
    | false =>
      rw [if_neg (by simp)]
      have hself : l.set s l[s] = l := List.set_getElem_self hs
      have hbut : HeapBut (projected pred proj) s s (l.set s l[s]) := by
        rw [hself]
        exact .of_heapFrom hheap
      obtain ⟨r, hloop, hperm, hheap'⟩ := siftDownLoop_spec h l.length hbut (Nat.le_refl s) hc hy
        hmax hstop (by omega)
      rw [hself] at hperm
      exact ⟨r, hloop, hperm, hheap'⟩

/-! ## Building and taking apart -/

theorem makeHeapLoop_spec (h : StrictWeakOrder pred) {l : List α} (n : Nat)
    (hheap : HeapFrom (projected pred proj) n l) :
    ∃ r, makeHeapLoop pred proj l n = .ok r ∧ l.Perm r ∧
      HeapFrom (projected pred proj) 0 r := by
  induction n generalizing l with
  | zero => exact ⟨l, rfl, .refl l, hheap⟩
  | succ n ih =>
    obtain ⟨r₁, hrun₁, hperm₁, hheap₁⟩ := siftDownN_spec h hheap
    obtain ⟨r, hrun, hperm, hr⟩ := ih hheap₁
    exact ⟨r, by rw [makeHeapLoop, hrun₁, exec_bind_ok, hrun], hperm₁.trans hperm, hr⟩

theorem makeHeap_spec (h : StrictWeakOrder pred) (proj : α → κ) (l : List α) :
    ∃ r, makeHeap pred proj l = .ok r ∧ l.Perm r ∧ HeapFrom (projected pred proj) 0 r := by
  rw [makeHeap]
  split
  next hlong => exact makeHeapLoop_spec h _ (heapFrom_half _ (by omega))
  next hshort => exact ⟨l, rfl, .refl l, heapFrom_half _ (by omega)⟩

/-- The root goes to the end, and the rest is a heap again. -/
theorem popHeapN_spec (h : StrictWeakOrder pred) {x : α} {l : List α}
    (hheap : HeapFrom (projected pred proj) 0 (x :: l)) :
    ∃ r, popHeapN pred proj (x :: l) = .ok (r ++ [x]) ∧ l.Perm r ∧
      HeapFrom (projected pred proj) 0 r := by
  rw [popHeapN]
  obtain rfl | ⟨m, y, rfl⟩ := l.eq_nil_or_concat
  · exact ⟨[], rfl, .refl [], heapFrom_half _ (by simp)⟩
  · have hlen : (x :: m.concat y).length - 1 = 0 + 1 + m.length := by
      simp only [List.length_cons, List.length_concat]
      omega
    have hswap : iterSwap (x :: m.concat y) 0 (0 + 1 + m.length) = .ok (y :: m ++ [x]) := by
      rw [List.concat_eq_append]
      exact iterSwap_append [] x m y []
    have hlower : HeapFrom (projected pred proj) (0 + 1) (y :: m) := by
      rw [List.concat_eq_append] at hheap
      exact hheap.replace_root y
    obtain ⟨r, hrun, hperm, hr⟩ := siftDownN_spec h hlower
    have hrange : onRange (y :: m ++ [x]) 0 (0 + 1 + m.length)
        (fun l => siftDownN pred proj l 0) = .ok (r ++ [x]) :=
      onRange_append (p := []) rfl (by simp only [List.length_cons, List.length_nil]; omega) hrun
    refine ⟨r, ?_, ?_, hr⟩
    · rw [if_pos (by simp), hlen, hswap, exec_bind_ok]
      exact hrange
    · rw [List.concat_eq_append]
      exact (List.perm_append_singleton y m).trans hperm

/-- The heap in front shrinks, and what is behind it is sorted and not less. -/
theorem sortHeapLoop_spec (h : StrictWeakOrder pred) {a b : List α}
    (hheap : HeapFrom (projected pred proj) 0 a) (hb : Sorted (projected pred proj) b)
    (hab : NotAbove (projected pred proj) a b) :
    ∃ r, sortHeapLoop pred proj (a ++ b) a.length = .ok r ∧ (a ++ b).Perm r ∧
      Sorted (projected pred proj) r := by
  have hproj := h.projected proj
  induction hn : a.length generalizing a b with
  | zero =>
    rw [List.eq_nil_of_length_eq_zero hn]
    exact ⟨b, rfl, .refl b, hb⟩
  | succ n ih =>
    obtain ⟨x, l, rfl⟩ := List.exists_cons_of_length_eq_add_one hn
    rw [sortHeapLoop]
    by_cases hmore : 1 < n + 1
    · obtain ⟨r₁, hrun₁, hperm₁, hheap₁⟩ := popHeapN_spec h hheap
      have hroot := hheap.root hproj
      have hmem : ∀ z ∈ r₁, z ∈ x :: l := fun z hz =>
        List.mem_cons_of_mem x (hperm₁.mem_iff.mpr hz)
      have hsorted : Sorted (projected pred proj) (x :: b) :=
        List.pairwise_cons.mpr ⟨fun y hy => hab x (by simp) y hy, hb⟩
      have hlen₁ : r₁.length = n := by
        rw [← hperm₁.length_eq]
        simpa using hn
      obtain ⟨r, hrun, hperm, hr⟩ := ih hheap₁ hsorted (fun z hz w hw => by
        obtain rfl | hw := List.mem_cons.mp hw
        · exact hroot z (hmem z hz)
        · exact hab z (hmem z hz) w hw) hlen₁
      have hrange : onRange (x :: l ++ b) 0 (n + 1) (popHeapN pred proj) = .ok (r₁ ++ [x] ++ b) :=
        onRange_append (p := []) rfl (by rw [hn]; simp) hrun₁
      refine ⟨r, ?_, ?_, hr⟩
      · rw [if_pos hmore, hrange, exec_bind_ok, List.append_assoc]
        exact hrun
      · refine List.Perm.trans ?_ hperm
        exact List.perm_middle.symm.trans (hperm₁.append_right (x :: b))
    · -- the last root stays where it is
      have hnil : l = [] := by
        apply List.eq_nil_of_length_eq_zero
        rw [List.length_cons] at hn
        omega
      subst hnil
      rw [if_neg hmore]
      exact ⟨x :: b, rfl, .refl _, List.pairwise_cons.mpr ⟨fun y hy => hab x (by simp) y hy, hb⟩⟩

theorem sortHeap_spec (h : StrictWeakOrder pred) {l : List α}
    (hheap : HeapFrom (projected pred proj) 0 l) :
    ∃ r, sortHeap pred proj l = .ok r ∧ l.Perm r ∧ Sorted (projected pred proj) r := by
  have hnil : NotAbove (projected pred proj) l [] := fun _ _ _ hb => by cases hb
  have hloop := sortHeapLoop_spec h hheap .nil hnil
  rwa [List.append_nil] at hloop

/-! ## `partial_sort` -/

/-- An element less than the root sinks from its place; the root counts as behind the heap. -/
theorem siftDownN_replaced (h : StrictWeakOrder pred) {x z : α} {l c : List α}
    (hheap : HeapFrom (projected pred proj) 0 (x :: l))
    (hac : NotAbove (projected pred proj) (x :: l) c) (hlt : projected pred proj z x = true) :
    ∃ r, siftDownN pred proj (z :: l) 0 = .ok r ∧ (z :: l).Perm r ∧
      HeapFrom (projected pred proj) 0 r ∧ NotAbove (projected pred proj) r (c ++ [x]) := by
  have hproj := h.projected proj
  have hroot := hheap.root hproj
  rw [← List.append_nil l] at hheap
  obtain ⟨r, hrun, hperm, hr⟩ := siftDownN_spec h (hheap.replace_root z)
  refine ⟨r, hrun, hperm, hr, fun u hu w hw => ?_⟩
  have hwx : projected pred proj w x = false := by
    obtain hw | hw := List.mem_append.mp hw
    · exact hac x (by simp) w hw
    · rw [List.mem_singleton.mp hw]
      exact hproj.not_self x
  obtain rfl | hu := List.mem_cons.mp (hperm.mem_iff.mpr hu)
  · exact hproj.not_lt_trans (hproj.asymm hlt) hwx
  · exact hproj.not_lt_trans (hroot u (List.mem_cons_of_mem x hu)) hwx

/-- An element less than the root takes its place and sinks; the root goes behind the heap. -/
theorem replaceRoot_spec (h : StrictWeakOrder pred) {x z : α} {l c : List α} (d : List α)
    (hheap : HeapFrom (projected pred proj) 0 (x :: l))
    (hac : NotAbove (projected pred proj) (x :: l) c) (hlt : projected pred proj z x = true) :
    ∃ m r, iterSwap (x :: l ++ c ++ z :: d) (x :: l ++ c).length 0 = .ok m ∧
      onRange m 0 (x :: l).length (fun l => siftDownN pred proj l 0) =
        .ok (r ++ (c ++ [x]) ++ d) ∧
      (x :: l ++ c ++ z :: d).Perm (r ++ (c ++ [x]) ++ d) ∧ r.length = (x :: l).length ∧
      HeapFrom (projected pred proj) 0 r ∧ NotAbove (projected pred proj) r (c ++ [x]) := by
  have hpos : (x :: l ++ c).length = 0 + 1 + (l ++ c).length := by
    simp only [List.cons_append, List.length_cons]
    omega
  have hswap : iterSwap (x :: l ++ c ++ z :: d) (x :: l ++ c).length 0 =
      .ok (z :: l ++ (c ++ x :: d)) := by
    rw [hpos, ← List.append_assoc]
    exact iterSwap_append_right [] x (l ++ c) z d
  obtain ⟨r, hrun, hperm, hr, habove⟩ := siftDownN_replaced h hheap hac hlt
  have hrange : onRange (z :: l ++ (c ++ x :: d)) 0 (x :: l).length
      (fun l => siftDownN pred proj l 0) = .ok (r ++ (c ++ x :: d)) :=
    onRange_append (p := []) rfl (by simp) hrun
  have hend : r ++ (c ++ x :: d) = r ++ (c ++ [x]) ++ d := by simp
  refine ⟨_, r, hswap, by rw [hrange, hend], ?_, by rw [← hperm.length_eq]; rfl, hr, habove⟩
  have hout : (x :: l ++ c ++ z :: d).Perm (z :: (x :: l ++ c ++ d)) := List.perm_middle
  have hin : (x :: (z :: l ++ c ++ d)).Perm (z :: l ++ (c ++ x :: d)) := by
    rw [← List.append_assoc]
    exact List.perm_middle.symm
  have hsift := (hout.trans (.swap x z (l ++ c ++ d))).trans
    (hin.trans (hperm.append_right (c ++ x :: d)))
  rwa [hend] at hsift

/-- An element that is not less than the root stays behind the heap. -/
theorem notAbove_concat {γ : Type} {lt : γ → γ → Bool} (h : StrictWeakOrder lt) {x z : γ}
    {l c : List γ} (hheap : HeapFrom lt 0 (x :: l)) (hac : NotAbove lt (x :: l) c)
    (hlt : lt z x = false) : NotAbove lt (x :: l) (c ++ [z]) := by
  intro u hu w hw
  obtain hw | hw := List.mem_append.mp hw
  · exact hac u hu w hw
  · rw [List.mem_singleton.mp hw]
    exact h.not_lt_trans (hheap.root h u hu) hlt

/-- The heap keeps the least elements seen so far. -/
theorem partialSortLoop_spec (h : StrictWeakOrder pred) {a c : List α} (ha : a ≠ [])
    (hheap : HeapFrom (projected pred proj) 0 a) (hac : NotAbove (projected pred proj) a c)
    (d : List α) :
    ∃ a' c', partialSortLoop pred proj a.length (a ++ c ++ d) d.length (a ++ c).length =
        .ok (a' ++ c', (a ++ c ++ d).length) ∧ a'.length = a.length ∧
      (a ++ c ++ d).Perm (a' ++ c') ∧ HeapFrom (projected pred proj) 0 a' ∧
      NotAbove (projected pred proj) a' c' := by
  have hproj := h.projected proj
  induction d generalizing a c with
  | nil => exact ⟨a, c, by simp [partialSortLoop], rfl, by simp, hheap, hac⟩
  | cons z d ih =>
    obtain ⟨x, l, rfl⟩ := List.exists_cons_of_ne_nil ha
    have hx : deref (x :: l ++ c ++ z :: d) 0 = .ok x := rfl
    -- behind the next element, whatever the heap is by then
    have hnext (r : List α) (w : α) (hr : r.length = (x :: l).length) :
        (x :: l ++ c).length + 1 = (r ++ (c ++ [w])).length := by
      simp only [List.length_append, List.length_cons, List.length_nil] at hr ⊢
      omega
    rw [show (z :: d).length = d.length + 1 from rfl, partialSortLoop, deref_append, exec_bind_ok,
      hx, exec_bind_ok]
    cases hlt : pred (proj z) (proj x) with
    | false =>
      have hacz := notAbove_concat hproj hheap hac hlt
      have hloop := ih (by simp) hheap hacz
      rw [if_neg (by simp), hnext (x :: l) z rfl]
      simpa only [List.append_assoc, List.singleton_append] using hloop
    | true =>
      obtain ⟨m, r, hswap, hrange, hperm, hlen, hr, hrc⟩ := replaceRoot_spec h d hheap hac hlt
      have hne : r ≠ [] := List.ne_nil_of_length_pos (by rw [hlen]; simp)
      obtain ⟨a', c', hloop, hlen', hperm', hheap', hac'⟩ := ih hne hr hrc
      refine ⟨a', c', ?_, hlen'.trans hlen, hperm.trans hperm', hheap', hac'⟩
      rw [if_pos rfl, hswap, exec_bind_ok, hrange, exec_bind_ok, hnext r x hlen, ← hlen,
        hperm.length_eq]
      exact hloop

/-- `partial_sort` leaves the `middle` least elements sorted in front. -/
theorem partialSort_spec (h : StrictWeakOrder pred) (proj : α → κ) {l : List α} {middle : Nat}
    (hpos : 0 < middle) (hle : middle ≤ l.length) :
    ∃ a b, partialSort pred proj l middle = .ok (a ++ b, l.length) ∧ a.length = middle ∧
      l.Perm (a ++ b) ∧ Sorted (projected pred proj) a ∧ NotAbove (projected pred proj) a b := by
  obtain ⟨a₀, d, rfl, rfl⟩ := exists_cut hle
  obtain ⟨a₁, hmake, hperm₁, hheap₁⟩ := makeHeap_spec h proj a₀
  have hlen₁ := hperm₁.length_eq
  have hne : a₁ ≠ [] := List.ne_nil_of_length_pos (by omega)
  obtain ⟨a₂, b, hloop, hlen₂, hperm₂, hheap₂, hab⟩ := partialSortLoop_spec h hne hheap₁
    (c := []) (fun _ _ _ hw => by cases hw) d
  obtain ⟨a, hsort, hperm, hsorted⟩ := sortHeap_spec h hheap₂
  have hmake' : onRange (a₀ ++ d) 0 a₀.length (makeHeap pred proj) = .ok (a₁ ++ d) :=
    onRange_append (p := []) rfl (Nat.zero_add _).symm hmake
  have hsort' : onRange (a₂ ++ b) 0 a₀.length (sortHeap pred proj) = .ok (a ++ b) :=
    onRange_append (p := []) rfl (by rw [hlen₁, ← hlen₂, List.length_nil, Nat.zero_add]) hsort
  simp only [List.append_nil] at hloop hperm₂
  have hcount : (a₁ ++ d).length - a₀.length = d.length := by
    rw [List.length_append, hlen₁, Nat.add_sub_cancel_left]
  refine ⟨a, b, ?_, ?_, ?_, hsorted, fun x hx y hy => hab x (hperm.mem_iff.mpr hx) y hy⟩
  · rw [partialSort, hmake', exec_bind_ok, hcount, hlen₁, hloop, exec_bind_ok]
    dsimp only
    rw [← hlen₁, hsort', exec_bind_ok, List.length_append, List.length_append, hlen₁]
  · rw [← hperm.length_eq, hlen₂, hlen₁]
  · exact ((hperm₁.append_right d).trans hperm₂).trans (hperm.append_right b)

end EARanges.Algorithm
