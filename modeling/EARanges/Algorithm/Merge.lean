import EARanges.Support.Store
import EARanges.Support.StableOrder

/-!
# `copy` and `merge`

algorithm/copy.hpp and algorithm/merge.hpp on a flat store, where the output may
overlap an input: `merge_adaptive` merges into the range it reads. An input range
`[begin, end)` is given by its begin and its length. Moving out of a cell leaves its
value, also where a cell is assigned to itself.
-/
namespace EARanges.Algorithm
open EARanges.Support

variable {α κ : Type}

def copy (s : Store α) : Nat → Ptr → Ptr → Exec (Store α × Ptr)
  | 0, _, out => .ok (s, out)
  | n + 1, begin_, out => do
    let x ← load s begin_
    let s ← store s out x
    copy s n begin_.next out.next

/-- The `for` loop of `merge` and the copies after it. -/
def mergeLoop (pred : κ → κ → Bool) (proj : α → κ) (s : Store α) :
    Nat → Ptr → Nat → Ptr → Nat → Ptr → Exec (Store α × Ptr)
  | 0, _, _, _, _, _ => .error .fuel
  | fuel + 1, begin0, n0, begin1, n1, out =>
    if n0 ≠ 0 ∧ n1 ≠ 0 then do
      let y ← load s begin1
      let x ← load s begin0
      if pred (proj y) (proj x) then
        let s ← store s out y
        mergeLoop pred proj s fuel begin0 n0 begin1.next (n1 - 1) out.next
      else
        let s ← store s out x
        mergeLoop pred proj s fuel begin0.next (n0 - 1) begin1 n1 out.next
    else do
      let (s, out) ← copy s n0 begin0 out
      copy s n1 begin1 out

def merge (pred : κ → κ → Bool) (proj : α → κ) (s : Store α) (begin0 : Ptr) (n0 : Nat)
    (begin1 : Ptr) (n1 : Nat) (out : Ptr) : Exec (Store α × Ptr) :=
  mergeLoop pred proj s (n0 + n1 + 1) begin0 n0 begin1 n1 out

/-- What was written first stays while the output moves on. -/
theorem holds_cons_of_step {s s' : Store α} {out : Ptr} {x : α} {l : List α} {n : Nat}
    (hsame : SameOutside out.next n (Function.update s out.addr (some (some x))) s')
    (h : Holds s' out.next l) : Holds s' out (x :: l) ∧ SameOutside out (n + 1) s s' := by
  refine ⟨⟨?_, h⟩, hsame.step⟩
  rw [hsame out.addr, Function.update_self]
  intro i _ heq
  rw [out.next_cell, ← out.cell_zero] at heq
  have := out.cell_inj heq
  omega

theorem copy_spec {s : Store α} {b out : Ptr} {l : List α} (hb : Holds s b l)
    (hw : Writable s out l.length) (ht : Trails out b 0 l.length) :
    ∃ s', copy s l.length b out = .ok (s', out.advance l.length) ∧ Holds s' out l ∧
      SameOutside out l.length s s' := by
  induction l generalizing s b out with
  | nil => exact ⟨s, by rw [List.length_nil, out.advance_zero]; rfl, trivial, .refl _ _ _⟩
  | cons x l ih =>
    have hstore := store_of_writable hw x
    have hb' := hb.update_next ht (some (some x))
    have hw' : Writable s out.next l.length :=
      Writable.advance (n := 1) (by rw [Nat.add_comm]; exact hw)
    obtain ⟨s', hrun, hholds, hsame⟩ := ih hb' (hw'.update _ _) ht.next_both
    refine ⟨s', ?_, holds_cons_of_step hsame hholds⟩
    rw [List.length_cons, copy, load_of_holds hb, exec_bind_ok, hstore, exec_bind_ok, hrun,
      Ptr.next_advance]

/-- The loop ends with the stable merge at `out`, and nothing else has changed. -/
def Merged (pred : κ → κ → Bool) (proj : α → κ) (s : Store α) (fuel : Nat) (b0 : Ptr)
    (l : List α) (b1 : Ptr) (m : List α) (out : Ptr) : Prop :=
  ∃ s', mergeLoop pred proj s fuel b0 l.length b1 m.length out =
      .ok (s', out.advance (l.length + m.length)) ∧
    Holds s' out (stableMerge (projected pred proj) l m) ∧
    SameOutside out (l.length + m.length) s s'

section Step
variable {pred : κ → κ → Bool} {proj : α → κ} {s : Store α} {fuel : Nat} {b0 b1 out : Ptr}
  {x y : α} {l m : List α}

theorem Merged.second (hl : Holds s b0 (x :: l)) (hm : Holds s b1 (y :: m))
    (hw : Writable s out ((x :: l).length + (y :: m).length))
    (hlt : pred (proj y) (proj x) = true)
    (h : Merged pred proj (Function.update s out.addr (some (some y))) fuel b0 (x :: l) b1.next m
      out.next) :
    Merged pred proj s (fuel + 1) b0 (x :: l) b1 (y :: m) out := by
  obtain ⟨s', hrun, hholds, hsame⟩ := h
  have hmerge : stableMerge (projected pred proj) (x :: l) (y :: m) =
      y :: stableMerge (projected pred proj) (x :: l) m :=
    List.cons_merge_cons_neg _ _ _ (by simp [projected, hlt])
  have hstore := store_of_writable (n := 0)
    (hw.mono (by simp only [List.length_cons]; omega)) y
  have hstep := holds_cons_of_step hsame hholds
  rw [← hmerge] at hstep
  refine ⟨s', ?_, hstep⟩
  rw [mergeLoop, if_pos ⟨by simp, by simp⟩, load_of_holds hm, exec_bind_ok, load_of_holds hl,
    exec_bind_ok, if_pos hlt, hstore, exec_bind_ok]
  rw [out.next_advance] at hrun
  exact hrun

theorem Merged.first (hl : Holds s b0 (x :: l)) (hm : Holds s b1 (y :: m))
    (hw : Writable s out ((x :: l).length + (y :: m).length))
    (hlt : ¬ pred (proj y) (proj x) = true)
    (h : Merged pred proj (Function.update s out.addr (some (some x))) fuel b0.next l b1 (y :: m)
      out.next) :
    Merged pred proj s (fuel + 1) b0 (x :: l) b1 (y :: m) out := by
  obtain ⟨s', hrun, hholds, hsame⟩ := h
  have hmerge : stableMerge (projected pred proj) (x :: l) (y :: m) =
      x :: stableMerge (projected pred proj) l (y :: m) :=
    List.cons_merge_cons_pos _ _ _ (by simp [projected, hlt])
  have hcount : l.length + (y :: m).length + 1 = (x :: l).length + (y :: m).length := by
    rw [List.length_cons (a := x), Nat.add_right_comm]
  have hstore := store_of_writable (n := 0)
    (hw.mono (by simp only [List.length_cons]; omega)) x
  have hstep := holds_cons_of_step hsame hholds
  rw [← hmerge, hcount] at hstep
  refine ⟨s', ?_, hstep⟩
  rw [mergeLoop, if_pos ⟨by simp, by simp⟩, load_of_holds hm, exec_bind_ok, load_of_holds hl,
    exec_bind_ok, if_neg hlt, hstore, exec_bind_ok]
  rw [out.next_advance, hcount] at hrun
  exact hrun

end Step

theorem mergeLoop_spec {pred : κ → κ → Bool} {proj : α → κ} (fuel : Nat) {s : Store α}
    {b0 b1 out : Ptr} {l m : List α} (hl : Holds s b0 l) (hm : Holds s b1 m)
    (hw : Writable s out (l.length + m.length)) (htl : Trails out b0 m.length l.length)
    (htm : Trails out b1 l.length m.length) (hfuel : l.length + m.length < fuel) :
    Merged pred proj s fuel b0 l b1 m out := by
  induction fuel generalizing s b0 b1 out l m with
  | zero => omega
  | succ fuel ih =>
    cases l with
    | nil =>
      -- only the second input is left
      obtain ⟨s', hrun, hholds, hsame⟩ := copy_spec hm (hw.mono (by simp))
        (htm.mono (Nat.zero_le _))
      refine ⟨s', ?_, by simpa [stableMerge] using hholds, by simpa using hsame⟩
      rw [mergeLoop, if_neg (by simp), List.length_nil, copy, exec_bind_ok, Nat.zero_add]
      exact hrun
    | cons x l =>
      cases m with
      | nil =>
        obtain ⟨s', hrun, hholds, hsame⟩ := copy_spec hl (hw.mono (by simp))
          (htl.mono (Nat.zero_le _))
        refine ⟨s', ?_, by simpa [stableMerge] using hholds, hsame⟩
        rw [mergeLoop, if_neg (by simp), hrun, exec_bind_ok]
        rfl
      | cons y m =>
        by_cases hlt : pred (proj y) (proj x) = true
        · have hl' : Holds (Function.update s out.addr (some (some y))) b0 (x :: l) :=
            hl.update (fun i hi => htl.addr_ne hi (by simp only [List.length_cons]; omega)) _
          have hm' := hm.update_next htm (some (some y))
          have hw' : Writable s out.next ((x :: l).length + m.length) :=
            Writable.advance (n := 1) (hw.mono (by simp only [List.length_cons]; omega))
          have hrest := ih hl' hm' (hw'.update _ _) htl.next_out htm.next_both
            (by simp only [List.length_cons] at hfuel ⊢; omega)
          exact hrest.second hl hm hw hlt
        · have hl' := hl.update_next htl (some (some x))
          have hm' : Holds (Function.update s out.addr (some (some x))) b1 (y :: m) :=
            hm.update (fun i hi => htm.addr_ne hi (by simp only [List.length_cons]; omega)) _
          have hw' : Writable s out.next (l.length + (y :: m).length) :=
            Writable.advance (n := 1) (hw.mono (by simp only [List.length_cons]; omega))
          have hrest := ih hl' hm' (hw'.update _ _) htl.next_both htm.next_out
            (by simp only [List.length_cons] at hfuel ⊢; omega)
          exact hrest.first hl hm hw hlt

/-- The output holds the stable merge, and nothing else has changed. -/
theorem merge_spec (pred : κ → κ → Bool) (proj : α → κ) {s : Store α} {b0 b1 out : Ptr}
    {l m : List α} (hl : Holds s b0 l) (hm : Holds s b1 m)
    (hw : Writable s out (l.length + m.length)) (htl : Trails out b0 m.length l.length)
    (htm : Trails out b1 l.length m.length) :
    ∃ s', merge pred proj s b0 l.length b1 m.length out =
        .ok (s', out.advance (l.length + m.length)) ∧
      Holds s' out (stableMerge (projected pred proj) l m) ∧
      SameOutside out (l.length + m.length) s s' :=
  mergeLoop_spec _ hl hm hw htl htm (Nat.lt_succ_self _)

end EARanges.Algorithm
