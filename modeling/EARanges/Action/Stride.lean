import EARanges.Action.Slice
import EARanges.Algorithm.AdjacentRemoveIf
import EARanges.View.Stride

/-!
# `actions::stride`

action/stride.hpp. The kept elements are moved down one after another, by a write iterator that
starts at the second element and a read iterator that jumps by `step` but never past the end, and
what is left behind the last of them is erased.
-/
namespace EARanges.Action
open EARanges.Support EARanges.Iterator EARanges.View EARanges.Algorithm

variable {α : Type} (lang : IfConstexpr) (husk : α → α)

/-- `for(…; i != last; advance(i, step, last), ++first) *first = iter_move(i)`. -/
def strideLoop (t : Iterator.RangeTraits) (step : Int) :
    Nat → List α → Nat → Nat → Exec (List α × Nat)
  | 0, _, _, _ => .error .fuel
  | fuel + 1, l, first, i =>
    if i = l.length then .ok (l, first)
    else do
      let l ← assignMoved husk l first i
      let (i, _) ← advanceEnd lang t l.length i step
      let first ← incr l first
      strideLoop t step fuel l first i

/-- `actions::stride(rng, step)`. -/
def stride (c : BaseRange α) (step : Int) : Exec (BaseRange α) :=
  if ¬ 0 < step then .error .fault
  else if 1 < step then
    if c.length ≠ 0 then do
      let first ← incr c.list 0
      let i ← nextEnd lang c.traits c.length first (step - 1)
      let (l, first) ← strideLoop lang husk c.traits step c.length c.list first i
      erase { c with list := l } first c.length
    else erase c 0 c.length
  else .ok c

variable {lang husk}

/-- The first `k` elements are in place, and from the next one to be read on nothing has been
touched. -/
structure Strode (step : Nat) (hstep : 0 < step) (l : List α) (k : Nat) (cur : List α) : Prop where
  le : k ≤ ceilDiv l.length step
  length : cur.length = l.length
  front : cur.take k = (StrideView.strided step hstep l).take k
  rest : cur.drop (k * step) = l.drop (k * step)

section
variable {step : Nat} {hstep : 0 < step} {l cur : List α} {k : Nat}

theorem Strode.first (hstep : 0 < step) (hl : l ≠ []) : Strode step hstep l 1 l where
  le := (lt_ceilDiv_iff hstep).mpr (by rw [Nat.zero_mul]; exact List.length_pos_of_ne_nil hl)
  length := rfl
  front := by
    rw [List.take_add_one, List.take_add_one, StrideView.getElem?_strided, Nat.zero_mul]
    rfl
  rest := rfl

/-- One round of the loop. -/
theorem Strode.turn (h : Strode step hstep l k cur) (husk : α → α) (hk : k < k * step)
    (hlt : k * step < l.length) :
    ∃ cur', assignMoved husk cur k (k * step) = .ok cur' ∧ Strode step hstep l (k + 1) cur' := by
  have hget : cur[k * step]? = l[k * step]? := by
    rw [← Nat.add_zero (k * step), ← List.getElem?_drop, ← List.getElem?_drop, h.rest]
  have hx := hget.trans (List.getElem?_eq_getElem hlt)
  obtain ⟨cur', hrun, hlength, hfront, hrest⟩ :=
    assignMoved_spec husk (deref_of_some hx) hk (by rw [h.length]; exact hlt)
  have hnext : k * step + 1 ≤ (k + 1) * step := by
    rw [Nat.succ_mul]
    omega
  refine ⟨cur', hrun, (lt_ceilDiv_iff hstep).mpr hlt, hlength.trans h.length, ?_, ?_⟩
  · rw [hfront, h.front, List.take_add_one, StrideView.getElem?_strided,
      List.getElem?_eq_getElem hlt]
    rfl
  · obtain ⟨d, hd⟩ := Nat.exists_eq_add_of_le hnext
    calc
      cur'.drop ((k + 1) * step) = (cur'.drop (k * step + 1)).drop d := by rw [hd, List.drop_drop]
      _ = (cur.drop (k * step)).drop (1 + d) := by
        rw [hrest, List.drop_drop, List.drop_drop, Nat.add_assoc]
      _ = l.drop ((k + 1) * step) := by rw [h.rest, List.drop_drop, hd, Nat.add_assoc]

/-- At the end the elements in place are all there are to be kept. -/
theorem Strode.done (h : Strode step hstep l k cur) (hend : l.length ≤ k * step) :
    k = ceilDiv l.length step :=
  Nat.le_antisymm h.le (Nat.le_of_not_lt fun hlt =>
    absurd ((lt_ceilDiv_iff hstep).mp hlt) (Nat.not_lt.mpr hend))

theorem strideLoop_spec (lang : IfConstexpr) (husk : α → α) (t : Iterator.RangeTraits)
    (hone : 1 < step) (fuel : Nat) (hpos : 0 < k)
    (hfuel : l.length < min (k * step) l.length + fuel) (h : Strode step hstep l k cur) :
    ∃ cur', strideLoop lang husk t step fuel cur k (min (k * step) l.length) =
        .ok (cur', ceilDiv l.length step) ∧
      Strode step hstep l (ceilDiv l.length step) cur' := by
  induction fuel generalizing k cur with
  | zero => omega
  | succ fuel ih =>
    rw [strideLoop, h.length]
    by_cases hend : l.length ≤ k * step
    · rw [if_pos (Nat.min_eq_right hend), ← h.done hend]
      exact ⟨cur, rfl, h⟩
    · have hlt : k * step < l.length := Nat.lt_of_not_le hend
      have hk : k < k * step := (Nat.lt_mul_iff_one_lt_right hpos).mpr hone
      have hmul : (k + 1) * step = k * step + step := Nat.succ_mul k step
      obtain ⟨cur', hrun, hturn⟩ := h.turn husk hk hlt
      have hfirst : k < cur'.length := by rw [hturn.length]; omega
      rw [Nat.min_eq_left (Nat.le_of_lt hlt)] at hfuel ⊢
      rw [if_neg (by omega), hrun, exec_bind_ok, hturn.length,
        advanceEnd_eq (Nat.le_of_lt hlt) step, exec_bind_ok]
      simp only [incr_ok hfirst, exec_bind_ok, ← hmul]
      exact ih (Nat.succ_pos k) (by omega) hturn

theorem Strode.erased {c : BaseRange α} (h : Strode step hstep c.list (ceilDiv c.length step) cur) :
    erase { c with list := cur } (ceilDiv c.length step) c.length =
      .ok { c with list := StrideView.strided step hstep c.list } := by
  have hlength : (StrideView.strided step hstep c.list).length = ceilDiv c.length step :=
    List.length_ofFn
  have hle : ceilDiv c.length step ≤ c.length := by
    refine Nat.le_of_not_lt fun hlt => ?_
    have := (lt_ceilDiv_iff hstep).mp hlt
    have := Nat.le_mul_of_pos_right c.length hstep
    omega
  have hfront : cur.take (ceilDiv c.length step) = StrideView.strided step hstep c.list :=
    h.front.trans (List.take_of_length_le (Nat.le_of_eq hlength))
  have htail : cur.drop c.length = [] := List.drop_of_length_le (Nat.le_of_eq h.length)
  rw [erase, if_pos ⟨hle, Nat.le_of_eq h.length.symm⟩]
  simp only [hfront, htail, List.append_nil]

theorem strided_nil : StrideView.strided step hstep ([] : List α) = [] :=
  List.eq_nil_of_length_eq_zero (List.length_ofFn.trans (Nat.eq_zero_of_not_pos fun hpos =>
    absurd ((lt_ceilDiv_iff hstep).mp hpos) (Nat.not_lt_zero _)))

theorem stride_moving (c : BaseRange α) (hone : 1 < step) :
    stride lang husk c step = .ok { c with list := StrideView.strided step hstep c.list } := by
  have hcast : (0 : Int) < step ∧ (1 : Int) < step := by omega
  rw [stride, if_neg (not_not.mpr hcast.1), if_pos hcast.2]
  by_cases hempty : c.length = 0
  · have hnil : c.list = [] := List.length_eq_zero_iff.mp hempty
    rw [if_neg (not_not.mpr hempty), erase, if_pos ⟨Nat.zero_le _, Nat.le_refl _⟩, hempty, hnil,
      strided_nil]
    rfl
  · have hpos : 0 < c.list.length := Nat.pos_of_ne_zero hempty
    have hsub : (step : Int) - 1 = (step - 1 : Nat) := by omega
    have hread : min (0 + 1 + (step - 1)) c.length = min (1 * step) c.list.length := by
      rw [Nat.one_mul, BaseRange.length]
      omega
    obtain ⟨cur, hloop, hdone⟩ := strideLoop_spec lang husk c.traits hone c.length
      Nat.one_pos (by rw [BaseRange.length]; omega)
      (Strode.first hstep (List.ne_nil_of_length_pos hpos))
    rw [if_pos hempty, incr_ok hpos, exec_bind_ok, hsub, nextEnd_eq (by exact hpos), exec_bind_ok,
      hread, hloop]
    exact hdone.erased

/-- A step of one keeps everything. -/
theorem strided_one (l : List α) : StrideView.strided 1 Nat.one_pos l = l := by
  apply List.ext_getElem?
  intro i
  rw [StrideView.getElem?_strided, Nat.mul_one]

/-- The action keeps every `step`-th element, and those are what `views::stride` presents of the
same elements, whatever has been done with the view before. -/
theorem stride_correct (lang : IfConstexpr) (husk : α → α) (c : BaseRange α) (step : Nat)
    (hstep : 0 < step) :
    ∃ kept, stride lang husk c step = .ok { c with list := kept } ∧
      (∀ i, kept[i]? = c.list[i * step]?) ∧
      ∀ v : StrideView α, v.base = c.list → v.stride = step →
        ∀ offset cs, StrideView.Reachable v offset cs → (v.loop offset).Delivers kept := by
  refine ⟨StrideView.strided step hstep c.list, ?_, StrideView.getElem?_strided hstep c.list, ?_⟩
  · obtain hone | rfl : 1 < step ∨ step = 1 := by omega
    · exact stride_moving c hone
    · rw [strided_one]
      rfl
  · rintro v hbase rfl offset cs hreach
    rw [← hbase]
    exact (StrideView.loop_numbers hreach.valid.1).delivers

theorem stride_correct_seven :
    ∃ kept, stride .cxx17 id ⟨[1, 2, 3, 4, 5, 6, 7], .ofArray, false, false⟩ 3 =
        .ok ⟨kept, .ofArray, false, false⟩ ∧
      (∀ i, kept[i]? = [1, 2, 3, 4, 5, 6, 7][i * 3]?) ∧
      ∀ v : StrideView Nat, v.base = [1, 2, 3, 4, 5, 6, 7] → v.stride = 3 →
        ∀ offset cs, StrideView.Reachable v offset cs → (v.loop offset).Delivers kept :=
  stride_correct .cxx17 id ⟨[1, 2, 3, 4, 5, 6, 7], .ofArray, false, false⟩ 3 (by decide)

end

end EARanges.Action
