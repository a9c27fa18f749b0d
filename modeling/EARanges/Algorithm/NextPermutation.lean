import EARanges.Algorithm.Rotate
import EARanges.Support.Lexicographic
import Mathlib.Data.List.Permutation

/-!
# `next_permutation` and `prev_permutation`

algorithm/permutation.hpp, the last two algorithms, and algorithm/reverse.hpp with an
implementation for each iterator tag. Behind `i` the range is descending when the loop
looks at `*i`.
-/
namespace EARanges.Algorithm
open EARanges.Support

variable {α κ : Type}

/-- `reverse_impl` for bidirectional iterators. -/
def reverseBidirectional : Nat → List α → Nat → Nat → Exec (List α)
  | 0, _, _, _ => .error .fuel
  | fuel + 1, l, first, last =>
    if first ≠ last then
      let last := last - 1
      if first = last then .ok l
      else do
        let l ← iterSwap l first last
        reverseBidirectional fuel l (first + 1) last
    else .ok l

/-- The `for` loop of `reverse_impl` for random access iterators. -/
def reverseLoop : Nat → List α → Nat → Nat → Exec (List α)
  | 0, _, _, _ => .error .fuel
  | fuel + 1, l, first, last =>
    let last := last - 1
    if first < last then do
      let l ← iterSwap l first last
      reverseLoop fuel l (first + 1) last
    else .ok l

def reverseRandomAccess (l : List α) : Exec (List α) :=
  if 0 ≠ l.length then reverseLoop l.length l 0 l.length else .ok l

def reverse (t : IteratorTag) (l : List α) : Exec (List α) :=
  match t with
  | .randomAccess => reverseRandomAccess l
  | _ => reverseBidirectional (l.length + 1) l 0 l.length

section
variable (pred : κ → κ → Bool) (proj : α → κ)

/-- `while(!pred(*i, *--j));` -/
def lastAbove (l : List α) (i : Nat) : Nat → Exec Nat
  | 0 => .error .fault
  | j + 1 => do
    let x ← deref l i
    let y ← deref l j
    if pred (proj x) (proj y) then .ok j else lastAbove l i j

/-- The `while(true)` loop of `next_permutation`. -/
def nextPermutationLoop (t : IteratorTag) (l : List α) : Nat → Exec (List α × Bool)
  | 0 => .error .fault
  | i + 1 => do
    let ip1 := i + 1
    let x ← deref l i
    let y ← deref l ip1
    if pred (proj x) (proj y) then do
      let j ← lastAbove pred proj l i l.length
      let l ← iterSwap l i j
      let l ← onRange l ip1 l.length (reverse t)
      .ok (l, true)
    else if i = 0 then do
      let l ← reverse t l
      .ok (l, false)
    else nextPermutationLoop t l i

def nextPermutation (t : IteratorTag) (l : List α) : Exec (List α × Bool) :=
  if 0 = l.length then .ok (l, false)
  else
    let i := l.length - 1
    if 0 = i then .ok (l, false) else nextPermutationLoop pred proj t l i

/-- `while(!pred(*--j, *i));` -/
def lastBelow (l : List α) (i : Nat) : Nat → Exec Nat
  | 0 => .error .fault
  | j + 1 => do
    let x ← deref l i
    let y ← deref l j
    if pred (proj y) (proj x) then .ok j else lastBelow l i j

/-- The `while(true)` loop of `prev_permutation`. -/
def prevPermutationLoop (t : IteratorTag) (l : List α) : Nat → Exec (List α × Bool)
  | 0 => .error .fault
  | i + 1 => do
    let ip1 := i + 1
    let x ← deref l i
    let y ← deref l ip1
    if pred (proj y) (proj x) then do
      let j ← lastBelow pred proj l i l.length
      let l ← iterSwap l i j
      let l ← onRange l ip1 l.length (reverse t)
      .ok (l, true)
    else if i = 0 then do
      let l ← reverse t l
      .ok (l, false)
    else prevPermutationLoop t l i

def prevPermutation (t : IteratorTag) (l : List α) : Exec (List α × Bool) :=
  if 0 = l.length then .ok (l, false)
  else
    let i := l.length - 1
    if 0 = i then .ok (l, false) else prevPermutationLoop pred proj t l i

/-- `do visit(l); while(next_permutation(l));`, with the lists visited. -/
def visitPermutations (t : IteratorTag) : Nat → List α → Exec (List (List α))
  | 0, _ => .error .fuel
  | fuel + 1, l => do
    let (r, more) ← nextPermutation pred proj t l
    if more then do
      let visited ← visitPermutations t fuel r
      .ok (l :: visited)
    else .ok [l]

end

variable {pred : κ → κ → Bool} {proj : α → κ}

/-! ## Reversing -/

/-- The ends change places until they meet. -/
theorem reverseBidirectional_spec (fuel : Nat) (d m e : List α) (hfuel : m.length < fuel) :
    reverseBidirectional fuel (d ++ m ++ e) d.length (d.length + m.length) =
      .ok (d ++ m.reverse ++ e) := by
  induction fuel generalizing d m e with
  | zero => omega
  | succ fuel ih =>
    rw [reverseBidirectional]
    cases m with
    | nil => rw [if_neg (by simp)]; rfl
    | cons x m =>
      rw [List.length_cons] at hfuel ⊢
      rw [if_pos (by omega)]
      obtain rfl | ⟨m, y, rfl⟩ := m.eq_nil_or_concat
      · exact if_pos (by simp)
      · simp only [List.concat_eq_append, List.length_append, List.length_singleton] at hfuel ⊢
        have hlist : d ++ x :: (m ++ [y]) ++ e = d ++ x :: m ++ y :: e := by simp
        have hlast : d.length + (m.length + 1 + 1) - 1 = d.length + 1 + m.length := by omega
        have hswap := iterSwap_append d x m y e
        have hrest := ih (d ++ [y]) m (x :: e) (by omega)
        rw [List.length_append, List.length_singleton] at hrest
        have hnext : d ++ y :: m ++ x :: e = d ++ [y] ++ m ++ x :: e := by simp
        rw [hlast, if_neg (by omega), hlist, hswap, exec_bind_ok, hnext, hrest]
        simp

theorem reverseLoop_spec (fuel : Nat) (d m e : List α) (hpos : 0 < d.length + m.length)
    (hfuel : m.length ≤ fuel) (hfuel' : 0 < fuel) :
    reverseLoop fuel (d ++ m ++ e) d.length (d.length + m.length) = .ok (d ++ m.reverse ++ e) := by
  induction fuel generalizing d m e with
  | zero => omega
  | succ fuel ih =>
    rw [reverseLoop]
    cases m with
    | nil =>
      rw [if_neg (by simp only [List.length_nil]; omega)]
      rfl
    | cons x m =>
      obtain rfl | ⟨m, y, rfl⟩ := m.eq_nil_or_concat
      · rw [if_neg (by simp)]
        rfl
      · simp only [List.concat_eq_append, List.length_append, List.length_cons, List.length_nil]
          at hfuel ⊢
        have hlist : d ++ x :: (m ++ [y]) ++ e = d ++ x :: m ++ y :: e := by simp
        have hlast : d.length + (m.length + (0 + 1) + 1) - 1 = d.length + 1 + m.length := by omega
        have hswap := iterSwap_append d x m y e
        have hrest := ih (d ++ [y]) m (x :: e) (by simp) (by omega) (by omega)
        rw [List.length_append, List.length_singleton] at hrest
        have hnext : d ++ y :: m ++ x :: e = d ++ [y] ++ m ++ x :: e := by simp
        rw [hlast, if_pos (by omega), hlist, hswap, exec_bind_ok, hnext, hrest]
        simp

theorem reverse_spec (t : IteratorTag) (l : List α) : reverse t l = .ok l.reverse := by
  have hbidirectional : reverseBidirectional (l.length + 1) l 0 l.length = .ok l.reverse := by
    have hrun := reverseBidirectional_spec (l.length + 1) [] l [] (Nat.lt_succ_self _)
    simpa using hrun
  have hrandom : reverseRandomAccess l = .ok l.reverse := by
    rw [reverseRandomAccess]
    split
    next hne =>
      have hrun := reverseLoop_spec l.length [] l [] (by simp only [List.length_nil]; omega)
        (Nat.le_refl _) (by omega)
      simpa using hrun
    next hempty =>
      obtain rfl : l = [] := List.length_eq_zero_iff.mp (by omega)
      rfl
  cases t with
  | forward => exact hbidirectional
  | bidirectional => exact hbidirectional
  | randomAccess => exact hrandom

/-! ## A step -/

/-- What a call does: it goes on to the next rearrangement, or from the last one to the
first. -/
structure Stepped (lt : α → α → Bool) (l r : List α) (more : Bool) : Prop where
  next : more = true → NextRearrangement lt l r
  wrapped : more = false → Sorted (reversed lt) l ∧ l.Perm r ∧ Sorted lt r

theorem descending_cons {lt : α → α → Bool} (hlt : StrictWeakOrder lt) {x y : α} {s : List α}
    (hxy : lt x y = false) (hdesc : Sorted (reversed lt) (y :: s)) :
    Sorted (reversed lt) (x :: y :: s) := by
  refine List.pairwise_cons.mpr ⟨fun z hz => ?_, hdesc⟩
  obtain rfl | hz := List.mem_cons.mp hz
  · exact hxy
  · exact hlt.not_lt_trans ((List.pairwise_cons.mp hdesc).1 z hz) hxy

theorem lastAbove_spec (p s₁ s₂ c : List α) {x y : α} (hxy : projected pred proj x y = true)
    (hs₂ : ∀ z ∈ s₂, projected pred proj x z = false) :
    lastAbove pred proj (p ++ x :: s₁ ++ y :: s₂ ++ c) p.length
      (p.length + 1 + s₁.length + 1 + s₂.length) = .ok (p.length + 1 + s₁.length) := by
  have hx (q : List α) : deref (p ++ x :: s₁ ++ q) p.length = .ok x := by
    rw [List.append_assoc]
    exact deref_append p x (s₁ ++ q)
  have hpos : p.length + 1 + s₁.length = (p ++ x :: s₁).length := by
    rw [List.length_append, List.length_cons]
    omega
  induction s₂ using List.reverseRecOn generalizing c with
  | nil =>
    rw [List.append_assoc, List.length_nil, Nat.add_zero, lastAbove, hx, exec_bind_ok, hpos,
      List.cons_append, List.nil_append, deref_append, exec_bind_ok]
    exact if_pos hxy
  | append_singleton s₂ z ih =>
    have hz := hs₂ z (by simp)
    have hrest := ih (z :: c) fun w hw => hs₂ w (by simp [hw])
    have hlist : p ++ x :: s₁ ++ y :: (s₂ ++ [z]) ++ c = p ++ x :: s₁ ++ y :: s₂ ++ z :: c := by
      simp
    have hread : deref (p ++ x :: s₁ ++ y :: s₂ ++ z :: c)
        (p.length + 1 + s₁.length + 1 + s₂.length) = .ok z := by
      have hpos' : p.length + 1 + s₁.length + 1 + s₂.length =
          (p ++ x :: s₁ ++ y :: s₂).length := by
        rw [List.length_append, ← hpos, List.length_cons]
        omega
      rw [hpos']
      exact deref_append _ z c
    rw [hlist, List.length_append, List.length_singleton, ← Nat.add_assoc, lastAbove]
    rw [List.append_assoc (p ++ x :: s₁)] at hread hrest ⊢
    rw [hx, exec_bind_ok, hread, exec_bind_ok]
    rw [projected] at hz
    exact (if_neg (by simp [hz])).trans hrest

/-- In front of a descending part stands a lesser element. -/
theorem pivot_spec (h : StrictWeakOrder pred) (t : IteratorTag) (p : List α) {x y : α}
    {s : List α} (hdesc : Sorted (reversed (projected pred proj)) (y :: s))
    (hxy : projected pred proj x y = true) :
    ∃ r, nextPermutationLoop pred proj t (p ++ x :: y :: s) (p.length + 1) = .ok (r, true) ∧
      NextRearrangement (projected pred proj) (p ++ x :: y :: s) r := by
  obtain hnone | ⟨s₁, z, s₂, hs, hz, hs₂⟩ := none_or_last (projected pred proj x) (y :: s)
  · have hxy' := hnone y (List.mem_cons_self ..)
    rw [hxy] at hxy'
    cases hxy'
  · have hread : deref (p ++ x :: y :: s) (p.length + 1) = .ok y := by
      have := deref_append (p ++ [x]) y s
      simpa using this
    have hlist : p ++ x :: y :: s = p ++ x :: s₁ ++ z :: s₂ := by rw [hs]; simp
    have hj := lastAbove_spec p s₁ s₂ [] hz hs₂
    have hswap := iterSwap_append p x s₁ z s₂
    have hend : (p ++ x :: s₁ ++ z :: s₂).length =
        p.length + 1 + s₁.length + 1 + s₂.length := by
      simp only [List.length_append, List.length_cons]
      omega
    have hfirst : p.length + 1 = (p ++ [z]).length := by
      rw [List.length_append, List.length_singleton]
    have hlast : (p ++ z :: s₁ ++ x :: s₂).length =
        (p ++ [z]).length + (s₁ ++ x :: s₂).length := by
      simp only [List.length_append, List.length_cons, List.length_nil]
      omega
    have hrange := onRange_append (q := []) (f := reverse t) hfirst hlast
      (reverse_spec t (s₁ ++ x :: s₂))
    have hback : p ++ [z] ++ (s₁ ++ x :: s₂) ++ [] = p ++ z :: s₁ ++ x :: s₂ := by simp
    have hout : p ++ [z] ++ (s₁ ++ x :: s₂).reverse ++ [] =
        p ++ z :: (s₁ ++ x :: s₂).reverse := by simp
    rw [hback, hout] at hrange
    rw [List.append_nil] at hj
    refine ⟨p ++ z :: (s₁ ++ x :: s₂).reverse, ?_, ?_⟩
    · rw [nextPermutationLoop, deref_append, exec_bind_ok, hread, exec_bind_ok]
      refine (if_pos hxy).trans ?_
      rw [hlist, hend, hj, exec_bind_ok, hswap, exec_bind_ok, hrange, exec_bind_ok]
    · rw [hs]
      rw [hs] at hdesc
      exact NextRearrangement.of_pivot (h.projected proj) p hdesc hz hs₂

theorem nextPermutationLoop_spec (h : StrictWeakOrder pred) (t : IteratorTag) (p : List α) {x y : α}
    {s : List α} (hdesc : Sorted (reversed (projected pred proj)) (y :: s)) :
    ∃ r more, nextPermutationLoop pred proj t (p ++ x :: y :: s) (p.length + 1) = .ok (r, more) ∧
      Stepped (projected pred proj) (p ++ x :: y :: s) r more := by
  have hproj := h.projected proj
  induction p using List.reverseRecOn generalizing x y s with
  | nil =>
    cases hxy : projected pred proj x y with
    | true =>
      obtain ⟨r, hrun, hnext⟩ := pivot_spec h t [] hdesc hxy
      exact ⟨r, true, hrun, fun _ => hnext, fun hmore => (by cases hmore)⟩
    | false =>
      have hdesc' := descending_cons hproj hxy hdesc
      refine ⟨(x :: y :: s).reverse, false, ?_, fun hmore => (by cases hmore), fun _ => ?_⟩
      · have hx : deref (x :: y :: s) 0 = .ok x := rfl
        have hy : deref (x :: y :: s) (0 + 1) = .ok y := rfl
        rw [projected] at hxy
        rw [List.length_nil, nextPermutationLoop]
        dsimp only [List.nil_append]
        rw [hx, exec_bind_ok, hy, exec_bind_ok, if_neg (by simp [hxy]), if_pos rfl,
          reverse_spec, exec_bind_ok]
      · exact ⟨hdesc', (List.reverse_perm _).symm, List.pairwise_reverse.mpr hdesc'⟩
  | append_singleton p w ih =>
    cases hxy : projected pred proj x y with
    | true =>
      obtain ⟨r, hrun, hnext⟩ := pivot_spec h t (p ++ [w]) hdesc hxy
      exact ⟨r, true, hrun, fun _ => hnext, fun hmore => (by cases hmore)⟩
    | false =>
      obtain ⟨r, more, hrun, hstep⟩ := ih (x := w) (descending_cons hproj hxy hdesc)
      have hlist : p ++ [w] ++ x :: y :: s = p ++ w :: x :: y :: s := by simp
      have hlen : (p ++ [w]).length = p.length + 1 := by
        rw [List.length_append, List.length_singleton]
      have hy : deref (p ++ [w] ++ x :: y :: s) ((p ++ [w]).length + 1) = .ok y := by
        have := deref_append (p ++ [w] ++ [x]) y s
        simpa using this
      rw [projected] at hxy
      rw [nextPermutationLoop, deref_append, exec_bind_ok, hy, exec_bind_ok, if_neg (by simp [hxy]),
        if_neg (by simp), hlist, hlen]
      exact ⟨r, more, hrun, hstep⟩

theorem nextPermutation_spec (h : StrictWeakOrder pred) (proj : α → κ) (t : IteratorTag)
    (l : List α) :
    ∃ r more, nextPermutation pred proj t l = .ok (r, more) ∧
      Stepped (projected pred proj) l r more := by
  have hshort (hlen : l.length ≤ 1) : Stepped (projected pred proj) l l false := by
    have hsorted (r : α → α → Prop) : l.Pairwise r := by
      cases l with
      | nil => exact .nil
      | cons x l =>
        obtain rfl : l = [] := List.length_eq_zero_iff.mp (by simpa using hlen)
        exact List.pairwise_singleton r x
    exact ⟨fun hmore => (by cases hmore), fun _ => ⟨hsorted _, .refl l, hsorted _⟩⟩
  rw [nextPermutation]
  by_cases hnil : 0 = l.length
  · rw [if_pos hnil]
    exact ⟨l, false, rfl, hshort (by omega)⟩
  · by_cases hone : 0 = l.length - 1
    · rw [if_neg hnil]
      dsimp only
      rw [if_pos hone]
      exact ⟨l, false, rfl, hshort (by omega)⟩
    · obtain ⟨p, s, rfl, hp⟩ := exists_cut (show l.length - 2 ≤ l.length by omega)
      rw [List.length_append] at hp hnil hone
      obtain ⟨x, y, rfl⟩ := List.length_eq_two.mp (show s.length = 2 by omega)
      have hlast : (p ++ [x, y]).length - 1 = p.length + 1 := by simp
      obtain ⟨r, more, hrun, hstep⟩ := nextPermutationLoop_spec (x := x) h t p
        (List.pairwise_singleton (fun a b => reversed (projected pred proj) b a = false) y)
      rw [if_neg (by simp)]
      dsimp only
      rw [hlast, if_neg (by omega)]
      exact ⟨r, more, hrun, hstep⟩

/-! ## The other way round -/

theorem lastBelow_eq (l : List α) (i j : Nat) :
    lastBelow pred proj l i j = lastAbove (reversed pred) proj l i j := by
  induction j with
  | zero => rfl
  | succ j ih => rw [lastBelow, lastAbove, ih]; rfl

theorem prevPermutationLoop_eq (t : IteratorTag) (l : List α) (i : Nat) :
    prevPermutationLoop pred proj t l i = nextPermutationLoop (reversed pred) proj t l i := by
  induction i with
  | zero => rfl
  | succ i ih => rw [prevPermutationLoop, nextPermutationLoop, ih, lastBelow_eq]; rfl

/-- `prev_permutation` is `next_permutation` for the reversed order. -/
theorem prevPermutation_eq (t : IteratorTag) (l : List α) :
    prevPermutation pred proj t l = nextPermutation (reversed pred) proj t l := by
  simp only [prevPermutation, nextPermutation, prevPermutationLoop_eq]

theorem prevPermutation_spec (h : StrictWeakOrder pred) (proj : α → κ) (t : IteratorTag)
    (l : List α) :
    ∃ r more, prevPermutation pred proj t l = .ok (r, more) ∧
      Stepped (reversed (projected pred proj)) l r more := by
  rw [prevPermutation_eq]
  exact nextPermutation_spec h.reversed proj t l

theorem Stepped.perm {lt : α → α → Bool} {l r : List α} {more : Bool}
    (hstep : Stepped lt l r more) : l.Perm r := by
  cases more with
  | true => exact (hstep.next rfl).perm
  | false => exact (hstep.wrapped rfl).2.1

/-- A step is a wrap exactly if the list is the last one. -/
theorem Stepped.wrapped_iff {lt : α → α → Bool} (hlt : StrictWeakOrder lt) {l r : List α}
    {more : Bool} (hstep : Stepped lt l r more) : more = false ↔ Sorted (reversed lt) l := by
  constructor
  · exact fun hmore => (hstep.wrapped hmore).1
  · intro hdesc
    cases more with
    | false => rfl
    | true =>
      obtain ⟨hperm, hless, -⟩ := hstep.next rfl
      rw [LastRearrangement.of_descending hlt hdesc r hperm] at hless
      cases hless

/-- A step back undoes a step, also across the wrap. -/
theorem Stepped.back {lt : α → α → Bool} (hlt : StrictWeakOrder lt) {l r l' : List α}
    {more more' : Bool} (hstep : Stepped lt l r more) (hback : Stepped (reversed lt) r l' more') :
    more' = more ∧ List.Forall₂ (Equivalent lt) l l' := by
  cases more with
  | true =>
    have hnext := hstep.next rfl
    cases more' with
    | true => exact ⟨rfl, hnext.back (hback.next rfl)⟩
    | false =>
      have hfirst := FirstRearrangement.of_sorted hlt (hback.wrapped rfl).1
      have hless := hnext.less
      rw [hfirst l hnext.perm.symm] at hless
      cases hless
  | false =>
    obtain ⟨hdesc, hperm, hsorted⟩ := hstep.wrapped rfl
    cases more' with
    | true =>
      obtain ⟨hperm', hless, -⟩ := hback.next rfl
      rw [lexLt_reversed hperm'.length_eq,
        FirstRearrangement.of_sorted hlt hsorted l' hperm'] at hless
      cases hless
    | false =>
      obtain ⟨-, hperm', hdesc'⟩ := hback.wrapped rfl
      refine ⟨rfl, LastRearrangement.equivalent (.of_descending hlt hdesc)
        (.of_descending hlt hdesc') (hperm.trans hperm')⟩

/-! ## All rearrangements -/

/-- The loop ends, since fewer and fewer rearrangements are greater. -/
theorem visitPermutations_spec (h : StrictWeakOrder pred) (t : IteratorTag)
    {all : List (List α)} (n : Nat) {l : List α} (hall : ∀ m, l.Perm m → m ∈ all)
    (hn : countGreater (projected pred proj) all l < n) :
    ∃ visited, Enumerates (projected pred proj) l visited ∧
      ∀ fuel, n ≤ fuel → visitPermutations pred proj t fuel l = .ok visited := by
  induction n generalizing l with
  | zero => omega
  | succ n ih =>
    obtain ⟨r, more, hrun, hstep⟩ := nextPermutation_spec h proj t l
    have hpeel (fuel : Nat) (hfuel : n + 1 ≤ fuel) : ∃ rest, fuel = rest + 1 ∧ n ≤ rest :=
      ⟨fuel - 1, by omega, by omega⟩
    cases more with
    | false =>
      refine ⟨[l], .last (.of_descending (h.projected proj) (hstep.wrapped rfl).1), ?_⟩
      intro fuel hfuel
      obtain ⟨rest, rfl, -⟩ := hpeel fuel hfuel
      rw [visitPermutations, hrun, exec_bind_ok]
      exact if_neg (by simp)
    | true =>
      have hnext := hstep.next rfl
      have hless := hnext.countGreater_lt (h.projected proj) (hall r hnext.perm)
      obtain ⟨visited, henum, hvisit⟩ := ih (fun m hm => hall m (hnext.perm.trans hm))
        (show _ < n by omega)
      refine ⟨l :: visited, .step hnext henum, fun fuel hfuel => ?_⟩
      obtain ⟨rest, rfl, hrest⟩ := hpeel fuel hfuel
      rw [visitPermutations, hrun, exec_bind_ok]
      dsimp only
      rw [if_pos rfl, hvisit rest hrest, exec_bind_ok]

/-- `next_permutation` and `prev_permutation` go on and back in the lexicographic order of
the rearrangements and wrap at its ends, each undoes the other up to equivalence of
elements, and from the sorted list on every rearrangement is visited exactly once. -/
theorem permutation_correct (h : StrictWeakOrder pred) (proj : α → κ) (t : IteratorTag)
    (l : List α) :
    (∃ r more, nextPermutation pred proj t l = .ok (r, more) ∧ l.Perm r ∧
      (more = true → NextRearrangement (projected pred proj) l r) ∧
      (more = false → LastRearrangement (projected pred proj) l ∧
        FirstRearrangement (projected pred proj) r ∧ Sorted (projected pred proj) r) ∧
      (more = false ↔ Sorted (reversed (projected pred proj)) l) ∧
      ∃ l', prevPermutation pred proj t r = .ok (l', more) ∧
        List.Forall₂ (Equivalent (projected pred proj)) l l') ∧
    (∃ r more, prevPermutation pred proj t l = .ok (r, more) ∧ l.Perm r ∧
      ∃ l', nextPermutation pred proj t r = .ok (l', more) ∧
        List.Forall₂ (Equivalent (projected pred proj)) l l') ∧
    (Sorted (projected pred proj) l →
      ∃ visited, Returns (fun fuel => visitPermutations pred proj t fuel l) visited ∧
        (∀ v ∈ visited, l.Perm v) ∧
        ∀ m, l.Perm m → ∃ (i : Nat) (v : List α), visited[i]? = some v ∧
          List.Forall₂ (Equivalent (projected pred proj)) m v ∧
          ∀ (j : Nat) (w : List α), visited[j]? = some w →
            List.Forall₂ (Equivalent (projected pred proj)) m w → j = i) := by
  have hproj := h.projected proj
  refine ⟨?_, ?_, fun hsorted => ?_⟩
  · obtain ⟨r, more, hrun, hstep⟩ := nextPermutation_spec h proj t l
    obtain ⟨l', more', hrun', hback⟩ := prevPermutation_spec h proj t r
    obtain ⟨rfl, hequiv⟩ := hstep.back hproj hback
    refine ⟨r, more', hrun, hstep.perm, hstep.next, fun hmore => ?_, hstep.wrapped_iff hproj, l',
      hrun', hequiv⟩
    obtain ⟨hdesc, -, hr⟩ := hstep.wrapped hmore
    exact ⟨.of_descending hproj hdesc, .of_sorted hproj hr, hr⟩
  · obtain ⟨r, more, hrun, hstep⟩ := prevPermutation_spec h proj t l
    obtain ⟨l', more', hrun', hback⟩ := nextPermutation_spec h proj t r
    obtain ⟨rfl, hequiv⟩ := hstep.back hproj.reversed hback
    exact ⟨r, more', hrun, hstep.perm, l', hrun', equivalent_lists_reversed.mp hequiv⟩
  · obtain ⟨visited, henum, hvisit⟩ := visitPermutations_spec h t _
      (fun m hm => List.mem_permutations.mpr hm.symm) (Nat.lt_succ_self _)
    exact ⟨visited, ⟨_, hvisit⟩, henum.perm, fun m hm =>
      henum.exactly_once hproj (.of_sorted hproj hsorted) hm⟩

theorem permutation_correct_duplicates :
    ∃ visited, Returns (fun fuel => visitPermutations (fun a b : Nat => decide (a < b)) id
        .bidirectional fuel [1, 2, 2]) visited ∧
      ∀ v ∈ visited, [1, 2, 2].Perm v := by
  obtain ⟨visited, hvisit, hperm, -⟩ := (permutation_correct (.of_linearOrder Nat) id .bidirectional
    [1, 2, 2]).2.2 (by decide)
  exact ⟨visited, hvisit, hperm⟩

end EARanges.Algorithm
