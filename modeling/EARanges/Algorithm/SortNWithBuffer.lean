import EARanges.Algorithm.Merge
import EARanges.Support.InPlace
import EARanges.Support.WhileTrue

/-!
# `sort_n_with_buffer`

algorithm/aux_/sort_n_with_buffer.hpp, merge_n_with_buffer.hpp and merge_n.hpp, on a flat store.
The first run goes to the buffer and is merged with the second, which stays in place behind the
output. A pointer is plain: the counted iterators that `uncounted` and `recounted` are for end up
where these do.
-/
namespace EARanges.Algorithm.Aux
open EARanges.Support

variable {α κ : Type}

/-- `copy_n`; the result has the ends of the input and of the output. -/
def copyN (s : Store α) : Nat → Ptr → Ptr → Exec (Store α × Ptr × Ptr)
  | 0, b, out => .ok (s, b, out)
  | n + 1, b, out => do
    let x ← load s b
    let s ← store s out x
    copyN s n b.next out.next

/-- The variables of the loop of `merge_n`. -/
structure MergeN (α : Type) where
  s : Store α
  b0 : Ptr
  n0 : Nat
  b1 : Ptr
  n1 : Nat
  out : Ptr

/-- The body of that loop. It returns `in1`, `in2` and `out`. -/
def mergeNBody (r : κ → κ → Bool) (p0 p1 : α → κ) (st : MergeN α) :
    Exec (Iteration (MergeN α) (Store α × Ptr × Ptr × Ptr)) :=
  if 0 = st.n0 then do
    let (s, in_, out) ← copyN st.s st.n1 st.b1 st.out
    .ok (.done (s, st.b0, in_, out))
  else if 0 = st.n1 then do
    let (s, in_, out) ← copyN st.s st.n0 st.b0 st.out
    .ok (.done (s, in_, st.b1, out))
  else do
    let y ← load st.s st.b1
    let x ← load st.s st.b0
    if r (p1 y) (p0 x) then
      let s ← store st.s st.out y
      .ok (.again ⟨s, st.b0, st.n0, st.b1.next, st.n1 - 1, st.out.next⟩)
    else
      let s ← store st.s st.out x
      .ok (.again ⟨s, st.b0.next, st.n0 - 1, st.b1, st.n1, st.out.next⟩)

def mergeN (r : κ → κ → Bool) (p0 p1 : α → κ) (s : Store α) (begin0 : Ptr) (n0 : Nat)
    (begin1 : Ptr) (n1 : Nat) (out : Ptr) : Exec (Store α × Ptr × Ptr × Ptr) :=
  whileTrue (mergeNBody r p0 p1) (n0 + n1 + 1) ⟨s, begin0, n0, begin1, n1, out⟩

section
variable (r : κ → κ → Bool) (p : α → κ)

def mergeNWithBuffer (s : Store α) (begin0 : Ptr) (n0 : Nat) (begin1 : Ptr) (n1 : Nat)
    (buff : Ptr) : Exec (Store α × Ptr) := do
  let (s, _) ← copyN s n0 begin0 buff
  let (s, _, _, out) ← mergeN r p p s buff n0 begin1 n1 begin0
  .ok (s, out)

def sortNWithBuffer : Nat → Store α → Ptr → Nat → Ptr → Exec (Store α × Ptr)
  | 0, _, _, _, _ => .error .fuel
  | fuel + 1, s, first, n, buff =>
    let half := n / 2
    if 0 = half then .ok (s, first.advance n)
    else do
      let (s, m) ← sortNWithBuffer fuel s first half buff
      let (s, _) ← sortNWithBuffer fuel s m (n - half) buff
      mergeNWithBuffer r p s first half m (n - half) buff

end

/-! ## `merge_n` -/

theorem copyN_eq (s : Store α) (n : Nat) (b out : Ptr) :
    copyN s n b out = (do
      let (s, out) ← copy s n b out
      .ok (s, b.advance n, out)) := by
  induction n generalizing s b out with
  | zero =>
    rw [copyN, copy, b.advance_zero]
    rfl
  | succ n ih =>
    rw [copyN, copy]
    cases load s b with
    | error e => rfl
    | ok x =>
      cases hstore : store s out x with
      | error e => simp only [exec_bind_ok, hstore, exec_bind_error]
      | ok s' => simp only [exec_bind_ok, hstore, ih, Ptr.next_advance]

/-- The loop does what that of `merge` does. -/
theorem mergeN_eq_merge (r : κ → κ → Bool) (p0 p1 : α → κ) (fuel : Nat) (st : MergeN α) :
    whileTrue (mergeNBody r p0 p1) fuel st = (do
      let (s, out) ← mergeLoop (fun y x => r (p1 y) (p0 x)) id st.s fuel st.b0 st.n0 st.b1 st.n1
        st.out
      .ok (s, st.b0.advance st.n0, st.b1.advance st.n1, out)) := by
  induction fuel generalizing st with
  | zero => rfl
  | succ fuel ih =>
    obtain ⟨s, b0, n0, b1, n1, out⟩ := st
    rw [whileTrue, mergeNBody, mergeLoop]
    dsimp only
    cases n0 with
    | zero =>
      rw [if_pos rfl, if_neg (by simp), copyN_eq, copy, exec_bind_ok, b0.advance_zero]
      dsimp only
      cases copy s n1 b1 out with
      | error e => rfl
      | ok r => rfl
    | succ n0 =>
      rw [if_neg (by simp)]
      cases n1 with
      | zero =>
        rw [if_pos rfl, if_neg (by simp), copyN_eq, b1.advance_zero]
        cases copy s (n0 + 1) b0 out with
        | error e => rfl
        | ok r => rfl
      | succ n1 =>
        rw [if_neg (by simp), if_pos ⟨by simp, by simp⟩]
        cases load s b1 with
        | error e => rfl
        | ok y =>
          cases load s b0 with
          | error e => rfl
          | ok x =>
            simp only [exec_bind_ok, id]
            split
            · cases store s out y with
              | error e => rfl
              | ok s' =>
                simp only [exec_bind_ok, ih, Nat.add_sub_cancel, Ptr.next_advance]
            · cases store s out x with
              | error e => rfl
              | ok s' =>
                simp only [exec_bind_ok, ih, Nat.add_sub_cancel, Ptr.next_advance]

/-- The output holds the merge of the runs, which takes from the second only what is less. -/
theorem mergeN_spec (r : κ → κ → Bool) (p0 p1 : α → κ) {s : Store α} {b0 b1 out : Ptr}
    {l m : List α} (hl : Holds s b0 l) (hm : Holds s b1 m)
    (hw : Writable s out (l.length + m.length)) (htl : Trails out b0 m.length l.length)
    (htm : Trails out b1 l.length m.length) :
    ∃ s', mergeN r p0 p1 s b0 l.length b1 m.length out =
        .ok (s', b0.advance l.length, b1.advance m.length, out.advance (l.length + m.length)) ∧
      Holds s' out (l.merge m fun x y => !r (p1 y) (p0 x)) ∧
      SameOutside out (l.length + m.length) s s' := by
  obtain ⟨s', hrun, hholds, hsame⟩ :=
    merge_spec (fun y x => r (p1 y) (p0 x)) id hl hm hw htl htm
  refine ⟨s', ?_, hholds, hsame⟩
  rw [merge] at hrun
  rw [mergeN, mergeN_eq_merge, hrun]
  rfl

/-! ## What is overwritten -/

theorem store_eq_ok {s s' : Store α} {p : Ptr} {x : α} (h : store s p x = .ok s') :
    s' = Function.update s p.addr (some (some x)) := by
  rw [store] at h
  split at h
  · exact (Except.ok.inj h).symm
  · split at h
    · exact (Except.ok.inj h).symm
    · cases h
  · cases h

/-- What one turn does that is not the last. -/
theorem mergeNBody_again {r : κ → κ → Bool} {p0 p1 : α → κ} {st st' : MergeN α}
    (h : mergeNBody r p0 p1 st = .ok (.again st')) :
    0 < st.n0 ∧ 0 < st.n1 ∧ ∃ x, let s := Function.update st.s st.out.addr (some (some x))
      st' = ⟨s, st.b0, st.n0, st.b1.next, st.n1 - 1, st.out.next⟩ ∨
        st' = ⟨s, st.b0.next, st.n0 - 1, st.b1, st.n1, st.out.next⟩ := by
  rw [mergeNBody] at h
  by_cases h0 : 0 = st.n0
  · rw [if_pos h0] at h
    obtain ⟨_, _, h⟩ := exec_bind_eq_ok.mp h
    cases h
  by_cases h1 : 0 = st.n1
  · rw [if_neg h0, if_pos h1] at h
    obtain ⟨_, _, h⟩ := exec_bind_eq_ok.mp h
    cases h
  rw [if_neg h0, if_neg h1] at h
  obtain ⟨y, _, h⟩ := exec_bind_eq_ok.mp h
  obtain ⟨x, _, h⟩ := exec_bind_eq_ok.mp h
  refine ⟨Nat.pos_of_ne_zero (Ne.symm h0), Nat.pos_of_ne_zero (Ne.symm h1), ?_⟩
  split at h
  · obtain ⟨s, hstore, h⟩ := exec_bind_eq_ok.mp h
    obtain rfl := store_eq_ok hstore
    cases h
    exact ⟨y, .inl rfl⟩
  · obtain ⟨s, hstore, h⟩ := exec_bind_eq_ok.mp h
    obtain rfl := store_eq_ok hstore
    cases h
    exact ⟨x, .inr rfl⟩

/-- `i` elements of the first run and `j` of the second have been merged. The others stand in the
buffer and where they stood. -/
structure Unread (l m : List α) (first buff : Ptr) (i j : Nat) (st : MergeN α) : Prop where
  n0 : i + st.n0 = l.length
  n1 : j + st.n1 = m.length
  b0 : st.b0 = buff.advance i
  b1 : st.b1 = first.advance (l.length + j)
  out : st.out = first.advance (i + j)
  buffered : Holds st.s st.b0 (l.drop i)
  inPlace : Holds st.s st.b1 (m.drop j)

section
variable {l m : List α} {first buff : Ptr} {i j : Nat} {st st' : MergeN α}

/-- The output trails the second run by as many cells as elements are left in the buffer. -/
theorem Unread.trails (h : Unread l m first buff i j st) : st.out.advance st.n0 = st.b1 := by
  have hcount : i + j + st.n0 = l.length + j := by
    rw [← h.n0]
    omega
  rw [h.out, h.b1, Ptr.advance_advance, hcount]

/-- A write to the output spares what has not been read. -/
theorem Unread.write (h : Unread l m first buff i j st)
    (hapart : Apart first (l.length + m.length) buff l.length) (h0 : 0 < st.n0) (h1 : 0 < st.n1)
    (c : Option (Option α)) :
    Holds (Function.update st.s st.out.addr c) st.b0 (l.drop i) ∧
      Holds (Function.update st.s st.out.addr c) st.b1 (m.drop j) := by
  have hn0 := h.n0
  have hn1 := h.n1
  have haddr : st.out.addr = first.cell (i + j) := by rw [h.out, Ptr.advance]
  constructor
  · refine h.buffered.update (fun k hk => ?_) c
    rw [List.length_drop] at hk
    rw [haddr, h.b0, Ptr.advance_cell]
    exact hapart _ (by omega) _ (by omega)
  · refine h.inPlace.update (fun k _ heq => ?_) c
    rw [haddr, h.b1, Ptr.advance_cell] at heq
    have := first.cell_inj heq
    omega

theorem Unread.step {r : κ → κ → Bool} {p0 p1 : α → κ} (h : Unread l m first buff i j st)
    (hapart : Apart first (l.length + m.length) buff l.length)
    (hrun : mergeNBody r p0 p1 st = .ok (.again st')) :
    ∃ i' j', Unread l m first buff i' j' st' := by
  obtain ⟨h0, h1, x, hst'⟩ := mergeNBody_again hrun
  obtain ⟨hbuffered, hinPlace⟩ := h.write hapart h0 h1 (some (some x))
  have hn0 := h.n0
  have hn1 := h.n1
  have hout : st.out.next = first.advance (i + j + 1) := by
    rw [h.out, Ptr.next, Ptr.advance_advance]
  obtain rfl | rfl := hst'
  · rw [List.drop_eq_getElem_cons (by omega)] at hinPlace
    refine ⟨i, j + 1, hn0, by dsimp only; omega, h.b0, ?_, hout, hbuffered, hinPlace.2⟩
    rw [h.b1, Ptr.next, Ptr.advance_advance]
    rfl
  · rw [List.drop_eq_getElem_cons (by omega)] at hbuffered
    refine ⟨i + 1, j, by dsimp only; omega, hn1, ?_, h.b1, ?_, hbuffered.2, hinPlace⟩
    · rw [h.b0, Ptr.next, Ptr.advance_advance]
    · rw [Nat.add_right_comm]
      exact hout

end

/-! ## The sort -/

/-- Nothing but the first `n` cells of the range and the first `k` of the buffer has changed, and
what has been written is an object. -/
structure Changed (first : Ptr) (n : Nat) (buff : Ptr) (k : Nat) (s s' : Store α) : Prop where
  same : ∀ a, (∀ i < n, first.cell i ≠ a) → (∀ i < k, buff.cell i ≠ a) → s' a = s a
  object : ∀ a, s' a = s a ∨ ∃ x, s' a = some (some x)

section
variable {first buff p : Ptr} {n k : Nat} {s s' s'' : Store α} {l m : List α}

theorem Changed.refl (first : Ptr) (n : Nat) (buff : Ptr) (k : Nat) (s : Store α) :
    Changed first n buff k s s := ⟨fun _ _ _ => rfl, fun _ => .inl rfl⟩

theorem Changed.trans (h : Changed first n buff k s s') (h' : Changed first n buff k s' s'') :
    Changed first n buff k s s'' where
  same a hfirst hbuff := (h'.same a hfirst hbuff).trans (h.same a hfirst hbuff)
  object a := by
    obtain heq | hobject := h'.object a
    · rw [heq]
      exact h.object a
    · exact .inr hobject

/-- A part of the range that begins `i` cells on, and a part of the buffer, are parts of more. -/
theorem Changed.mono {i n' k' : Nat} (h : Changed (first.advance i) n' buff k' s s')
    (hn : i + n' ≤ n) (hk : k' ≤ k) : Changed first n buff k s s' where
  same a hfirst hbuff := by
    refine h.same a (fun j hj => ?_) fun j hj => hbuff j (by omega)
    rw [first.advance_cell]
    exact hfirst (i + j) (by omega)
  object := h.object

/-- The first cells from `p` on hold a list now. -/
theorem object_of_sameOutside (h : SameOutside p l.length s s') (hl : Holds s' p l) (a : Int) :
    s' a = s a ∨ ∃ x, s' a = some (some x) := by
  by_cases ha : ∀ i < l.length, p.cell i ≠ a
  · exact .inl (h a ha)
  · obtain ⟨i, hi, rfl⟩ : ∃ i, ∃ _ : i < l.length, p.cell i = a := by
      simpa only [not_forall, not_not] using ha
    exact .inr ⟨l[i], holds_iff.mp hl i l[i] (List.getElem?_eq_getElem hi)⟩

theorem Changed.writable (h : Changed first n buff k s s') {c : Nat} (hw : Writable s p c) :
    Writable s' p c := hw.congr fun i _ => h.object (p.cell i)

/-- What lies apart from both areas stays. -/
theorem Changed.holds (h : Changed first n buff k s s') (hl : Holds s p l)
    (hfirst : Apart first n p l.length) (hbuff : Apart buff k p l.length) : Holds s' p l :=
  hl.congr fun j hj => h.same _ (fun i hi => hfirst i hi j hj) fun i hi => hbuff i hi j hj

theorem apart_advance (first : Ptr) (n m : Nat) : Apart first n (first.advance n) m := by
  intro i hi j _ heq
  rw [first.advance_cell] at heq
  have := first.cell_inj heq
  omega

/-- The first run is in the buffer, and both are still in place. -/
theorem copyToBuff_spec (hlm : Holds s first (l ++ m)) (hw : Writable s buff l.length)
    (hapart : Apart first (l.length + m.length) buff l.length) :
    ∃ s', copyN s l.length first buff = .ok (s', first.advance l.length, buff.advance l.length) ∧
      Holds s' buff l ∧ Holds s' first (l ++ m) ∧ SameOutside buff l.length s s' := by
  have hl := (holds_append.mp hlm).1
  have htrails : Trails buff first 0 l.length :=
    Apart.trails (by rw [Nat.zero_add]; exact (hapart.mono (Nat.le_add_right _ _) le_rfl).symm)
  obtain ⟨s', hrun, hbuff, hsame⟩ := copy_spec hl hw htrails
  refine ⟨s', by rw [copyN_eq, hrun]; rfl, hbuff, ?_, hsame⟩
  refine hlm.of_sameOutside hsame ?_
  rw [List.length_append]
  exact hapart.symm

theorem mergeNWithBuffer_spec (r : κ → κ → Bool) (p : α → κ) (hlm : Holds s first (l ++ m))
    (hw : Writable s buff l.length)
    (hapart : Apart first (l.length + m.length) buff l.length) :
    ∃ s', mergeNWithBuffer r p s first l.length (first.advance l.length) m.length buff =
        .ok (s', first.advance (l.length + m.length)) ∧
      Holds s' first (stableMerge (projected r p) l m) ∧
      Changed first (l.length + m.length) buff l.length s s' := by
  obtain ⟨s₁, hcopy, hbuff, hlm₁, hsame₁⟩ := copyToBuff_spec hlm hw hapart
  have hw₁ := hlm₁.writable
  rw [List.length_append] at hw₁
  have htrails : Trails first buff m.length l.length :=
    Apart.trails (by rw [Nat.add_comm]; exact hapart)
  have htrails' : Trails first (first.advance l.length) l.length m.length := by
    intro i j _ hi heq
    rw [first.advance_cell] at heq
    have := first.cell_inj heq
    omega
  obtain ⟨s', hmerge, hout, hsame⟩ :=
    mergeN_spec r p p hbuff (holds_append.mp hlm₁).2 hw₁ htrails htrails'
  have hlength : (stableMerge (projected r p) l m).length = l.length + m.length :=
    List.length_merge ..
  refine ⟨s', ?_, hout, fun a hfirst hbuff => ?_, fun a => ?_⟩
  · rw [mergeNWithBuffer, hcopy, exec_bind_ok]
    dsimp only
    rw [hmerge, exec_bind_ok]
  · rw [hsame a hfirst, hsame₁ a hbuff]
  · rw [← hlength] at hsame
    obtain heq | hobject := object_of_sameOutside hsame hout a
    · rw [heq]
      exact object_of_sameOutside hsame₁ hbuff a
    · exact .inr hobject

end

/-- Turns as many as there are elements are enough at every level. -/
theorem sortNWithBuffer_spec {r : κ → κ → Bool} (h : StrictWeakOrder r) (p : α → κ) (bound : Nat)
    {s : Store α} {first buff : Ptr} {l : List α} (hbound : l.length < bound)
    (hl : Holds s first l) (hw : Writable s buff (l.length / 2))
    (hapart : Apart first l.length buff (l.length / 2)) :
    ∃ s' sorted, (∀ fuel, l.length < fuel →
        sortNWithBuffer r p fuel s first l.length buff = .ok (s', first.advance l.length)) ∧
      IsStableSort (projected r p) l sorted ∧ Holds s' first sorted ∧
      Changed first l.length buff (l.length / 2) s s' := by
  induction bound generalizing s first l with
  | zero => omega
  | succ bound ih =>
    by_cases hhalf : 0 = l.length / 2
    · refine ⟨s, l, fun fuel hfuel => ?_, .self ?_, hl, .refl _ _ _ _ _⟩
      · obtain ⟨fuel, rfl⟩ := Nat.exists_eq_add_of_lt hfuel
        rw [sortNWithBuffer]
        exact if_pos hhalf
      · match l, hhalf with
        | [], _ => exact .nil
        | [x], _ => exact List.pairwise_singleton _ x
        | x :: y :: l, hhalf =>
          rw [List.length_cons, List.length_cons] at hhalf
          omega
    · obtain ⟨a, b, rfl, ha⟩ := exists_cut (Nat.div_le_self l.length 2)
      rw [← ha] at hhalf hw hapart ⊢
      rw [List.length_append] at ha hbound hapart ⊢
      have hlevels : a.length / 2 ≤ a.length ∧ b.length / 2 ≤ a.length := by omega
      have hholds := holds_append.mp hl
      have hapartb := hapart.advance_left (Nat.le_refl (a.length + b.length))
      -- the first run
      obtain ⟨s₁, ra, hrun₁, hsort₁, hholds₁, hchanged₁⟩ := ih (by omega) hholds.1
        (hw.mono hlevels.1) (hapart.mono (Nat.le_add_right _ _) hlevels.1)
      have hb₁ := hchanged₁.holds hholds.2 (apart_advance first a.length b.length)
        (hapartb.mono (Nat.le_refl _) hlevels.1).symm
      -- the second run
      obtain ⟨s₂, rb, hrun₂, hsort₂, hholds₂, hchanged₂⟩ := ih (by omega) hb₁
        ((hchanged₁.writable hw).mono hlevels.2) (hapartb.mono (Nat.le_refl _) hlevels.2)
      have hla : ra.length = a.length := hsort₁.length_eq
      have hlb : rb.length = b.length := hsort₂.length_eq
      have ha₂ := hchanged₂.holds hholds₁ (hla ▸ (apart_advance first a.length b.length).symm)
        (hla ▸ (hapart.mono (Nat.le_add_right _ _) hlevels.2).symm)
      have hboth : Holds s₂ first (ra ++ rb) := holds_append.mpr ⟨ha₂, hla ▸ hholds₂⟩
      -- and both
      obtain ⟨s', hrun, hout, hchanged⟩ := mergeNWithBuffer_spec r p hboth
        (hla ▸ hchanged₂.writable (hchanged₁.writable hw)) (by rw [hla, hlb]; exact hapart)
      rw [hla, hlb] at hrun hchanged
      refine ⟨s', stableMerge (projected r p) ra rb, ?_, ?_, hout, ?_⟩
      · intro fuel hfuel
        obtain ⟨fuel, rfl⟩ : ∃ n, fuel = n + 1 := ⟨fuel - 1, by omega⟩
        rw [sortNWithBuffer, ← ha]
        dsimp only
        rw [if_neg hhalf, hrun₁ fuel (by omega), exec_bind_ok]
        dsimp only
        rw [Nat.add_sub_cancel_left, hrun₂ fuel (by omega), exec_bind_ok]
        exact hrun
      · exact .of_stablePerm (hsort₁.stable.append hsort₂.stable)
          (isStableSort_merge (h.projected p) hsort₁.sorted hsort₂.sorted)
      · rw [← first.advance_zero] at hchanged₁ hchanged
        have hfront : Changed first (a.length + b.length) buff a.length s s₁ :=
          hchanged₁.mono (by omega) hlevels.1
        have hback : Changed first (a.length + b.length) buff a.length s₁ s₂ :=
          hchanged₂.mono (Nat.le_refl _) hlevels.2
        exact (hfront.trans hback).trans (hchanged.mono (by omega) (Nat.le_refl _))

section
variable (r : κ → κ → Bool) (p : α → κ)

/-- The first `n` elements are sorted stably, and the end of them is returned. Nothing else
changes but `n / 2` cells of the buffer. -/
def SortsFront : Prop :=
  ∀ (s : Store α) (first buff : Ptr) (l : List α) (n : Nat), n ≤ l.length → Holds s first l →
    Writable s buff (n / 2) → Apart first l.length buff (n / 2) →
    ∃ s' sorted, Returns (fun fuel => sortNWithBuffer r p fuel s first n buff)
        (s', first.advance n) ∧
      IsStableSort (projected r p) (l.take n) sorted ∧ Holds s' first (sorted ++ l.drop n) ∧
      ∀ a, (∀ i < n, first.cell i ≠ a) → (∀ i < n / 2, buff.cell i ≠ a) → s' a = s a

/-- Whenever the loop turns, what is left of the second run stands where it stood, and the output
as many cells before it as the buffer has elements left. -/
def SparesUnread : Prop :=
  ∀ (s : Store α) (first buff : Ptr) (l m : List α), Holds s first (l ++ m) →
    Writable s buff l.length → Apart first (l.length + m.length) buff l.length →
    (∃ s', mergeNWithBuffer r p s first l.length (first.advance l.length) m.length buff =
        .ok (s', first.advance (l.length + m.length)) ∧
      Holds s' first (stableMerge (projected r p) l m)) ∧
    ∃ s₁, copyN s l.length first buff =
        .ok (s₁, first.advance l.length, buff.advance l.length) ∧
      ∀ st, Visits (mergeNBody r p p)
          ⟨s₁, buff, l.length, first.advance l.length, m.length, first⟩ st →
        st.out.advance st.n0 = st.b1 ∧ ∃ i j, Unread l m first buff i j st

/-- `merge_n` with a projection for each run: the first run comes first on ties. -/
def MergesStably (p0 p1 : α → κ) : Prop :=
  ∀ (s : Store α) (b0 b1 out : Ptr) (l m : List α), Holds s b0 l → Holds s b1 m →
    Writable s out (l.length + m.length) → Trails out b0 m.length l.length →
    Trails out b1 l.length m.length →
    ∃ s', mergeN r p0 p1 s b0 l.length b1 m.length out =
        .ok (s', b0.advance l.length, b1.advance m.length, out.advance (l.length + m.length)) ∧
      Holds s' out (l.merge m fun x y => !r (p1 y) (p0 x)) ∧
      SameOutside out (l.length + m.length) s s'

end

variable {r : κ → κ → Bool}

theorem sortNWithBuffer_sorts (h : StrictWeakOrder r) (p : α → κ) : SortsFront r p := by
  intro s first buff l n hn hl hw hapart
  obtain ⟨a, b, rfl, rfl⟩ := exists_cut hn
  rw [List.take_left, List.drop_left]
  rw [List.length_append] at hapart
  obtain ⟨ha, hb⟩ := holds_append.mp hl
  obtain ⟨s', sorted, hrun, hsort, hholds, hchanged⟩ := sortNWithBuffer_spec h p (a.length + 1)
    (Nat.lt_succ_self _) ha hw (hapart.mono (Nat.le_add_right _ _) (Nat.le_refl _))
  have hrest := hchanged.holds hb (apart_advance first a.length b.length)
    (hapart.advance_left (i := a.length) (Nat.le_refl _)).symm
  refine ⟨s', sorted, ⟨a.length + 1, fun fuel hfuel => hrun fuel (by omega)⟩, hsort, ?_,
    hchanged.same⟩
  exact holds_append.mpr ⟨hholds, hsort.length_eq ▸ hrest⟩

theorem mergeNWithBuffer_sparesUnread (r : κ → κ → Bool) (p : α → κ) : SparesUnread r p := by
  intro s first buff l m hlm hw hapart
  obtain ⟨s', hmerge, hout, _⟩ := mergeNWithBuffer_spec r p hlm hw hapart
  obtain ⟨s₁, hcopy, hbuff, hlm₁, _⟩ := copyToBuff_spec hlm hw hapart
  refine ⟨⟨s', hmerge, hout⟩, s₁, hcopy, fun st hst => ?_⟩
  have hstart : Unread l m first buff 0 0
      ⟨s₁, buff, l.length, first.advance l.length, m.length, first⟩ :=
    ⟨Nat.zero_add _, Nat.zero_add _, buff.advance_zero.symm, rfl, first.advance_zero.symm, hbuff,
      (holds_append.mp hlm₁).2⟩
  have hunread : ∃ i j, Unread l m first buff i j st :=
    hst.invariant (I := fun st => ∃ i j, Unread l m first buff i j st) ⟨0, 0, hstart⟩
      fun st st' ⟨i, j, hst⟩ hrun => hst.step hapart hrun
  obtain ⟨i, j, h⟩ := hunread
  exact ⟨h.trails, i, j, h⟩

theorem sortNWithBuffer_correct (h : StrictWeakOrder r) (p : α → κ) :
    SortsFront r p ∧ SparesUnread r p ∧ (∀ p0 p1 : α → κ, MergesStably r p0 p1) ∧
      ∀ l m, Sorted (projected r p) l → Sorted (projected r p) m →
        IsStableSort (projected r p) (l ++ m) (l.merge m fun x y => !r (p y) (p x)) :=
  ⟨sortNWithBuffer_sorts h p, mergeNWithBuffer_sparesUnread r p,
    fun p0 p1 _ _ _ _ _ _ hl hm hw htl htm => mergeN_spec r p0 p1 hl hm hw htl htm,
    fun _ _ hl hm => isStableSort_merge (h.projected p) hl hm⟩

/-- The first three of four pairs, by their first component, with a buffer of one raw cell. -/
theorem sortNWithBuffer_correct_pairs :
    ∃ s' sorted, Returns (fun fuel => sortNWithBuffer (fun a b : Nat => decide (a < b)) Prod.fst
        fuel (withBuffer [(2, 0), (1, 0), (2, 1), (0, 0)] 1) ⟨0, false, false⟩ 3 ⟨4, false, true⟩)
        (s', Ptr.advance ⟨0, false, false⟩ 3) ∧
      IsStableSort (projected (fun a b : Nat => decide (a < b)) (Prod.fst : Nat × Nat → Nat))
        [(2, 0), (1, 0), (2, 1)] sorted ∧
      Holds s' ⟨0, false, false⟩ (sorted ++ [(0, 0)]) ∧
      ∀ a, (∀ i < 3, Ptr.cell ⟨0, false, false⟩ i ≠ a) →
        (∀ i < 1, Ptr.cell ⟨4, false, true⟩ i ≠ a) →
        s' a = withBuffer [(2, 0), (1, 0), (2, 1), (0, 0)] 1 a :=
  (sortNWithBuffer_correct (.of_linearOrder Nat) Prod.fst).1 _ _ _
    [(2, 0), (1, 0), (2, 1), (0, 0)] 3 (by decide) (withBuffer_holds _ 1)
    (withBuffer_writable _ (Nat.le_refl 1))
    (by
      intro i hi j _
      have hi : i < 4 := hi
      simp only [Ptr.cell, Bool.false_eq_true, if_false]
      omega)

end EARanges.Algorithm.Aux
