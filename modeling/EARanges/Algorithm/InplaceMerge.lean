import EARanges.Algorithm.Merge
import EARanges.Algorithm.PartitionPoint
import EARanges.Algorithm.Rotate
import EARanges.Utility.Memory

/-!
# `merge_adaptive`

algorithm/inplace_merge.hpp: `merge_adaptive_fn`, `inplace_merge_no_buffer_fn` and
`inplace_merge` on `[first, last)`, whose two parts meet at `middle`. `bufSize` cells of raw
memory are at hand. The loop and the recursive call share one fuel; `mergeAdaptive_spec` shows
that the length of the range covers it.
-/
namespace EARanges.Algorithm
open EARanges.Support EARanges.Utility

variable {α κ : Type}

section
variable (pred : κ → κ → Bool) (proj : α → κ)

/-- `merge_adaptive_fn::impl`. The range lies at address 0 and the buffer behind it. -/
def mergeAdaptiveImpl (bufSize : Nat) (l : List α) (middle len1 len2 : Nat) :
    Exec (List α) :=
  let s := withBuffer l bufSize
  let first : Ptr := { addr := 0 }
  let mid : Ptr := { addr := middle }
  let last : Ptr := { addr := l.length }
  let buf : Ptr := { addr := l.length }
  let tmpbuf : Ptr := { addr := l.length, raw := true }
  if len1 ≤ len2 then do
    let (s, _) ← copy s middle first tmpbuf
    let (s, _) ← merge pred proj s buf middle mid (l.length - middle) first
    loadMany s first l.length
  else do
    let (s, p) ← copy s (l.length - middle) mid tmpbuf
    let (s, _) ← merge (fun a b => !pred a b) proj s mid.reverse middle p.reverse
      (l.length - middle) last.reverse
    loadMany s first l.length

/-- Shrinks `[first, middle)` from the front, `len1` elements being left; `none` when
nothing is left. -/
def shrinkFirst (l : List α) (middle : Nat) : Nat → Nat → Exec (Option (Nat × Nat))
  | 0, _ => .ok none
  | len1 + 1, first => do
    let y ← deref l middle
    let x ← deref l first
    if pred (proj y) (proj x) then .ok (some (first, len1 + 1))
    else shrinkFirst l middle len1 (first + 1)

/-- Swaps the two middle parts and merges the halves, the smaller one first. -/
def mergeHalves (t : RangeTraits) (again : List α → Nat → Nat → Nat → Exec (List α)) (l : List α)
    (m1 middle m2 len11 len12 len21 len22 : Nat) : Exec (List α) := do
  let (l, p) ← onRangeWith l m1 m2 fun l => rotate t l (middle - m1)
  let middle := m1 + p
  if len11 + len21 < len12 + len22 then
    let l ← onRange l 0 middle fun l => again l m1 len11 len21
    onRange l middle l.length fun l => again l (m2 - middle) len12 len22
  else
    let l ← onRange l middle l.length fun l => again l (m2 - middle) len12 len22
    onRange l 0 middle fun l => again l m1 len11 len21

/-- The body of the loop once `[first, middle)` has been shrunk. -/
def mergeShrunk (t : RangeTraits) (bufSize : Nat)
    (again : List α → Nat → Nat → Nat → Exec (List α)) (l : List α) (middle len1 len2 : Nat) :
    Exec (List α) :=
  if len1 ≤ bufSize ∨ len2 ≤ bufSize then mergeAdaptiveImpl pred proj bufSize l middle len1 len2
  else if len1 < len2 then do
    let len21 := len2 / 2
    let m2 := middle + len21
    let v ← deref l m2
    let m1 ← upperBound pred proj t.sized (l.take middle) (proj v)
    let len11 := m1
    mergeHalves t again l m1 middle m2 len11 (len1 - len11) len21 (len2 - len21)
  else if len1 = 1 then iterSwap l 0 middle
  else do
    let len11 := len1 / 2
    let m1 := len11
    let v ← deref l m1
    let len21 ← lowerBound pred proj t.sized (l.drop middle) (proj v)
    let m2 := middle + len21
    mergeHalves t again l m1 middle m2 len11 (len1 - len11) len21 (len2 - len21)

def mergeAdaptive (t : RangeTraits) (bufSize : Nat) :
    Nat → List α → Nat → Nat → Nat → Exec (List α)
  | 0, _, _, _, _ => .error .fuel
  | fuel + 1, l, middle, len1, len2 =>
    if len2 = 0 then .ok l
    else do
      match ← shrinkFirst pred proj l middle len1 0 with
      | none => .ok l
      | some (first, len1) =>
        onRange l first l.length fun l =>
          mergeShrunk pred proj t bufSize (mergeAdaptive t bufSize fuel) l (middle - first) len1
            len2

def inplaceMergeNoBuffer (t : RangeTraits) (fuel : Nat) (l : List α) (middle len1 len2 : Nat) :
    Exec (List α) :=
  mergeAdaptive pred proj t 0 fuel l middle len1 len2

/-- `inplace_merge`, which also returns the end. `trivial` is
`is_trivially_copy_assignable_v` of the value type; the buffer is asked for by its length. -/
def inplaceMerge (t : RangeTraits) (trivial : Bool) (getBuffer : Nat → TemporaryBuffer)
    (fuel : Nat) (l : List α) (middle : Nat) : Exec (List α × Nat) := do
  let len1 := middle
  let len2 := l.length - middle
  let bufSize := min len1 len2
  let buf : TemporaryBuffer :=
    if trivial = true ∧ 8 < bufSize then getBuffer bufSize else ⟨false, 0⟩
  let l ← mergeAdaptive pred proj t buf.second fuel l middle len1 len2
  .ok (l, l.length)

/-- `merge` of two runs that lie one behind the other, into raw memory behind both. -/
def mergeBehind (a b : List α) : Exec (List α) := do
  let out : Ptr := { addr := (a ++ b).length, raw := true }
  let (s, _) ← merge pred proj (withBuffer (a ++ b) (a ++ b).length) { addr := 0 } a.length
    { addr := a.length } b.length out
  loadMany s out (a ++ b).length

end

variable {pred : κ → κ → Bool} {proj : α → κ}

/-! ## Merging from the back -/

/-- The last element of a merge is the greater of the last elements, the second list's
if they are equivalent. -/
theorem stableMerge_concat {lt : α → α → Bool} (h : StrictWeakOrder lt) {l m : List α} {x y : α}
    (hl : Sorted lt (l ++ [x])) (hm : Sorted lt (m ++ [y])) :
    stableMerge lt (l ++ [x]) (m ++ [y]) =
      if lt y x then stableMerge lt l (m ++ [y]) ++ [x]
      else stableMerge lt (l ++ [x]) m ++ [y] := by
  obtain ⟨hls, _, hlx⟩ := List.pairwise_append.mp hl
  obtain ⟨hms, _, hmy⟩ := List.pairwise_append.mp hm
  have hlex : ∀ a ∈ l ++ [x], lt x a = false := by
    intro a ha
    obtain ha | ha := List.mem_append.mp ha
    · exact hlx a ha x (by simp)
    · rw [List.mem_singleton.mp ha]
      exact h.not_self x
  have hley : ∀ b ∈ m ++ [y], lt y b = false := by
    intro b hb
    obtain hb | hb := List.mem_append.mp hb
    · exact hmy b hb y (by simp)
    · rw [List.mem_singleton.mp hb]
      exact h.not_self y
  apply (isStableSort_merge h hl hm).unique h
  split
  next hyx =>
    have hless : ∀ b ∈ m ++ [y], lt b x = true := fun b hb => h.lt_of_not_lt_of_lt (hley b hb) hyx
    have hmerge := isStableSort_merge h hls hm
    have hsorted : IsStableSort lt (l ++ (m ++ [y]) ++ [x])
        (stableMerge lt l (m ++ [y]) ++ [x]) := by
      apply hmerge.append (.self (by simp))
      intro a ha b hb
      rw [List.mem_singleton.mp hb]
      obtain ha | ha := List.mem_append.mp ha
      · exact hlex a (List.mem_append_left _ ha)
      · exact h.asymm (hless a ha)
    apply hsorted.of_stablePerm
    rw [List.append_assoc, List.append_assoc]
    refine (StablePerm.refl l).append (StablePerm.swap h fun a ha b hb => ?_)
    rw [List.mem_singleton.mp ha]
    exact hless b hb
  next hyx =>
    have hxy : lt y x = false := by simpa using hyx
    have hmerge := isStableSort_merge h hl hms
    rw [← List.append_assoc]
    apply hmerge.append (.self (by simp))
    intro a ha b hb
    rw [List.mem_singleton.mp hb]
    obtain ha | ha := List.mem_append.mp ha
    · exact h.not_lt_trans (hlex a ha) hxy
    · exact hley a (List.mem_append_left _ ha)

/-- Merging the reversed lists by the negated order is merging from the back. -/
theorem stableMerge_reverse {lt : α → α → Bool} (h : StrictWeakOrder lt) (l m : List α)
    (hl : Sorted lt l.reverse) (hm : Sorted lt m.reverse) :
    stableMerge (fun a b => !lt a b) l m = (stableMerge lt l.reverse m.reverse).reverse := by
  induction l generalizing m with
  | nil => simp [stableMerge]
  | cons x l ihl =>
    induction m with
    | nil => simp [stableMerge]
    | cons y m ihm =>
      have hl' : Sorted lt (l.reverse ++ [x]) := by rwa [← List.reverse_cons]
      have hm' : Sorted lt (m.reverse ++ [y]) := by rwa [← List.reverse_cons]
      have hls := (List.pairwise_append.mp hl').1
      have hms := (List.pairwise_append.mp hm').1
      rw [List.reverse_cons, List.reverse_cons, stableMerge_concat h hl' hm']
      cases hyx : lt y x with
      | true =>
        have hstep : stableMerge (fun a b => !lt a b) (x :: l) (y :: m) =
            x :: stableMerge (fun a b => !lt a b) l (y :: m) :=
          List.cons_merge_cons_pos _ _ _ (by simp [hyx])
        rw [hstep, ihl (y :: m) hls hm, if_pos rfl, List.reverse_append, List.reverse_singleton,
          List.singleton_append, List.reverse_cons]
      | false =>
        have hstep : stableMerge (fun a b => !lt a b) (x :: l) (y :: m) =
            y :: stableMerge (fun a b => !lt a b) (x :: l) m :=
          List.cons_merge_cons_neg _ _ _ (by simp [hyx])
        rw [hstep, ihm hms, if_neg (by simp), List.reverse_append, List.reverse_singleton,
          List.singleton_append, List.reverse_cons]

/-! ## Merging with the buffer -/

theorem holds_raw {s : Store α} {addr : Int} {raw : Bool} (raw' : Bool) {l : List α}
    (h : Holds s ⟨addr, false, raw⟩ l) : Holds s ⟨addr, false, raw'⟩ l := by
  rw [holds_iff] at h ⊢
  exact h

/-- A range read backward from its end. -/
theorem holds_reverse {s : Store α} {addr : Int} {raw : Bool} (raw' : Bool) {l : List α} :
    Holds s ⟨addr, false, raw⟩ l ↔ Holds s ⟨addr + l.length - 1, true, raw'⟩ l.reverse := by
  rw [holds_iff, holds_iff]
  simp only [Ptr.cell, Bool.false_eq_true, if_false, if_true]
  constructor
  · intro h i x hx
    have hi : i < l.length := by simpa using (List.getElem?_eq_some_iff.mp hx).1
    rw [List.getElem?_reverse hi] at hx
    have := h _ x hx
    rwa [show addr + ((l.length - 1 - i : Nat) : Int) = addr + l.length - 1 - i by omega] at this
  · intro h i x hx
    have hi := (List.getElem?_eq_some_iff.mp hx).1
    have hrev : l.reverse[l.length - 1 - i]? = some x := by
      rw [List.getElem?_reverse (by omega), show l.length - 1 - (l.length - 1 - i) = i by omega, hx]
    have := h _ x hrev
    rwa [show addr + l.length - 1 - ((l.length - 1 - i : Nat) : Int) = addr + i by omega] at this

/-- Copying a part of the range to the buffer leaves the range as it is. -/
theorem copyToBuffer_spec {l part : List α} {k : Nat} {start : Int} (hk : part.length ≤ k)
    (hend : start + part.length ≤ l.length)
    (hpart : Holds (withBuffer l k) ⟨start, false, false⟩ part) :
    ∃ s₁, copy (withBuffer l k) part.length ⟨start, false, false⟩ ⟨l.length, false, true⟩ =
        .ok (s₁, ⟨l.length + part.length, false, true⟩) ∧
      Holds s₁ ⟨l.length, false, true⟩ part ∧ Holds s₁ ⟨0, false, false⟩ l := by
  have htrails : Trails ⟨l.length, false, true⟩ ⟨start, false, false⟩ 0 part.length := by
    intro i j hj hi
    simp only [Ptr.cell, Bool.false_eq_true, if_false]
    omega
  obtain ⟨s₁, hrun, hbuf, hsame⟩ := copy_spec hpart (withBuffer_writable l hk) htrails
  have hall : Holds s₁ ⟨0, false, false⟩ l := by
    refine (withBuffer_holds l k).congr fun i hi => hsame _ fun j _ => ?_
    simp only [Ptr.cell, Bool.false_eq_true, if_false]
    omega
  exact ⟨s₁, hrun, hbuf, hall⟩

theorem holds_second {s : Store α} {a b : List α} (h : Holds s ⟨0, false, false⟩ (a ++ b)) :
    Holds s ⟨a.length, false, false⟩ b := by
  have hb := (holds_append.mp h).2
  simp only [Ptr.advance, Ptr.cell, Bool.false_eq_true, if_false, Int.zero_add] at hb
  exact hb

/-- The first part goes to the buffer and is merged from the front. -/
theorem mergeAdaptiveImpl_front {a b : List α} {k : Nat}
    (hle : a.length ≤ b.length) (hk : a.length ≤ k) :
    mergeAdaptiveImpl pred proj k (a ++ b) a.length a.length b.length =
      .ok (stableMerge (projected pred proj) a b) := by
  have hlen : (a ++ b).length = a.length + b.length := List.length_append
  have hmlen : (stableMerge (projected pred proj) a b).length = a.length + b.length :=
    List.length_merge ..
  have hfirst := (holds_append.mp (withBuffer_holds (a ++ b) k)).1
  obtain ⟨s₁, hrun₁, hbuf, hall₁⟩ := copyToBuffer_spec hk (by omega) hfirst
  have hw₁ := hall₁.writable
  rw [hlen] at hw₁ hrun₁ hbuf
  have htrails : Trails ⟨0, false, false⟩ ⟨((a.length + b.length : Nat) : Int), false, false⟩
      b.length a.length := by
    intro i j hj hi
    simp only [Ptr.cell, Bool.false_eq_true, if_false]
    omega
  have htrails' : Trails ⟨0, false, false⟩ ⟨a.length, false, false⟩ a.length b.length := by
    intro i j hj hi
    simp only [Ptr.cell, Bool.false_eq_true, if_false]
    omega
  obtain ⟨s₂, hrun₂, hout, _⟩ := merge_spec pred proj (holds_raw false hbuf)
    (holds_second hall₁) hw₁ htrails htrails'
  have hload := loadMany_of_holds hout
  rw [hmlen] at hload
  rw [mergeAdaptiveImpl]
  simp only [hlen, Nat.add_sub_cancel_left, if_pos hle]
  rw [hrun₁, exec_bind_ok]
  dsimp only
  rw [hrun₂, exec_bind_ok]
  exact hload

/-- The second part goes to the buffer and is merged from the back. -/
theorem mergeAdaptiveImpl_back (h : StrictWeakOrder pred) {a b : List α}
    (ha : Sorted (projected pred proj) a) (hb : Sorted (projected pred proj) b) {k : Nat}
    (hgt : b.length < a.length) (hk : b.length ≤ k) :
    mergeAdaptiveImpl pred proj k (a ++ b) a.length a.length b.length =
      .ok (stableMerge (projected pred proj) a b) := by
  have hlen : (a ++ b).length = a.length + b.length := List.length_append
  have hmlen : (stableMerge (projected pred proj) a b).length = a.length + b.length :=
    List.length_merge ..
  have hsecond := holds_second (withBuffer_holds (a ++ b) k)
  obtain ⟨s₁, hrun₁, hbuf, hall₁⟩ := copyToBuffer_spec hk (by omega) hsecond
  have hreva := (holds_reverse false).mp (holds_append.mp hall₁).1
  have hrevb := (holds_reverse true).mp hbuf
  have hrevall := (holds_reverse false).mp hall₁
  have hw₁ := hrevall.writable
  rw [List.length_reverse, hlen] at hw₁
  obtain ⟨s₂, hrun₂, hout, _⟩ := merge_spec (fun x y => !pred x y) proj
    hreva hrevb (by simpa using hw₁) (by
      intro i j hj hi
      simp only [List.length_reverse] at hj hi
      simp only [Ptr.cell, if_true]
      omega) (by
      intro i j hj hi
      simp only [List.length_reverse] at hj hi
      simp only [Ptr.cell, if_true]
      omega)
  have hmerge := stableMerge_reverse (h.projected proj) a.reverse b.reverse
    (by rwa [List.reverse_reverse]) (by rwa [List.reverse_reverse])
  rw [List.reverse_reverse, List.reverse_reverse] at hmerge
  have hout' : Holds s₂ ⟨0, false, false⟩ (stableMerge (projected pred proj) a b) := by
    have haddr : (0 : Int) + (stableMerge (projected pred proj) a b).length - 1 =
        (a.length : Int) + b.length - 1 := by
      rw [hmlen]
      omega
    apply (holds_reverse false).mpr
    rw [← hmerge, haddr]
    exact hout
  have hload := loadMany_of_holds hout'
  rw [hmlen] at hload
  simp only [Int.zero_add, Int.natCast_add, List.length_reverse, hlen] at hrun₁ hrun₂
  rw [mergeAdaptiveImpl]
  simp only [hlen, Nat.add_sub_cancel_left, if_neg (Nat.not_le.mpr hgt), Int.natCast_add]
  rw [hrun₁, exec_bind_ok]
  dsimp only [Ptr.reverse]
  rw [hrun₂, exec_bind_ok]
  exact hload

theorem mergeAdaptiveImpl_spec (h : StrictWeakOrder pred) {a b : List α}
    (ha : Sorted (projected pred proj) a) (hb : Sorted (projected pred proj) b) {k : Nat}
    (hk : a.length ≤ k ∨ b.length ≤ k) :
    mergeAdaptiveImpl pred proj k (a ++ b) a.length a.length b.length =
      .ok (stableMerge (projected pred proj) a b) := by
  by_cases hle : a.length ≤ b.length
  · exact mergeAdaptiveImpl_front hle (by omega)
  · exact mergeAdaptiveImpl_back h ha hb (by omega) (by omega)

/-! ## Without it -/

/-- What is skipped at the front is not greater than the head of the second part. -/
theorem shrinkFirst_spec (pred : κ → κ → Bool) (proj : α → κ) (d a : List α) (y : α) (b : List α) :
    (shrinkFirst pred proj (d ++ a ++ y :: b) (d.length + a.length) a.length d.length = .ok none ∧
      ∀ x ∈ a, projected pred proj y x = false) ∨
    ∃ p x q, a = p ++ x :: q ∧ (∀ z ∈ p, projected pred proj y z = false) ∧
      projected pred proj y x = true ∧
      shrinkFirst pred proj (d ++ a ++ y :: b) (d.length + a.length) a.length d.length =
        .ok (some (d.length + p.length, (x :: q).length)) := by
  induction a generalizing d with
  | nil => exact .inl ⟨rfl, by simp⟩
  | cons z a ih =>
    have hy : deref (d ++ (z :: a) ++ y :: b) (d.length + (z :: a).length) = .ok y := by
      rw [← List.length_append]
      exact deref_append _ y b
    have hz : deref (d ++ (z :: a) ++ y :: b) d.length = .ok z := by
      rw [List.append_assoc]
      exact deref_append d z (a ++ y :: b)
    have happ : d ++ (z :: a) ++ y :: b = d ++ [z] ++ a ++ y :: b := by simp
    have hpos : d.length + (z :: a).length = (d ++ [z]).length + a.length := by
      simp only [List.length_append, List.length_cons, List.length_nil]
      omega
    have hlen : (d ++ [z]).length = d.length + 1 := by simp
    cases hlt : pred (proj y) (proj z) with
    | true =>
      refine .inr ⟨[], z, a, rfl, by simp, hlt, ?_⟩
      rw [List.length_cons, shrinkFirst, ← List.length_cons (a := z), hy, exec_bind_ok, hz,
        exec_bind_ok, if_pos hlt]
      rfl
    | false =>
      have hstep : shrinkFirst pred proj (d ++ (z :: a) ++ y :: b) (d.length + (z :: a).length)
          (z :: a).length d.length = shrinkFirst pred proj (d ++ [z] ++ a ++ y :: b)
          ((d ++ [z]).length + a.length) a.length (d ++ [z]).length := by
        rw [List.length_cons, shrinkFirst, ← List.length_cons (a := z), hy, exec_bind_ok, hz,
          exec_bind_ok, if_neg (by simp [hlt]), happ, hpos, hlen]
      rw [hstep]
      obtain ⟨hrun, hle⟩ | ⟨p, x, q, rfl, hp, hx, hrun⟩ := ih (d ++ [z])
      · refine .inl ⟨hrun, fun w hw => ?_⟩
        obtain rfl | hw := List.mem_cons.mp hw
        · exact hlt
        · exact hle w hw
      · refine .inr ⟨z :: p, x, q, rfl, fun w hw => ?_, hx, ?_⟩
        · obtain rfl | hw := List.mem_cons.mp hw
          · exact hlt
          · exact hp w hw
        · rw [hrun, hlen, List.length_cons (a := z)]
          congr 3
          omega

/-- The halves are merged on their own once the middle parts have changed places. -/
theorem mergeHalves_spec {lt : α → α → Bool} (h : StrictWeakOrder lt) (t : RangeTraits)
    {again : List α → Nat → Nat → Nat → Exec (List α)} {a₁ a₂ b₁ b₂ r₁ r₂ : List α}
    (hrun₁ : again (a₁ ++ b₁) a₁.length a₁.length b₁.length = .ok r₁)
    (hsort₁ : IsStableSort lt (a₁ ++ b₁) r₁)
    (hrun₂ : again (a₂ ++ b₂) a₂.length a₂.length b₂.length = .ok r₂)
    (hsort₂ : IsStableSort lt (a₂ ++ b₂) r₂)
    (hswap : ∀ x ∈ a₂, ∀ y ∈ b₁, lt y x = true) (hle : NotAbove lt (a₁ ++ b₁) (a₂ ++ b₂)) :
    ∃ r, mergeHalves t again (a₁ ++ a₂ ++ (b₁ ++ b₂)) a₁.length (a₁.length + a₂.length)
        (a₁.length + a₂.length + b₁.length) a₁.length a₂.length b₁.length b₂.length = .ok r ∧
      IsStableSort lt (a₁ ++ a₂ ++ (b₁ ++ b₂)) r := by
  refine ⟨r₁ ++ r₂, ?_, ?_⟩
  · have hrotate := rotate_spec t a₂ b₁
    have hwith : onRangeWith (a₁ ++ (a₂ ++ b₁) ++ b₂) a₁.length
        (a₁.length + a₂.length + b₁.length)
        (fun l => rotate t l (a₁.length + a₂.length - a₁.length)) =
        .ok (a₁ ++ (b₁ ++ a₂) ++ b₂, b₁.length) := by
      refine onRangeWith_append rfl ?_ ?_
      · simp only [List.length_append]
        omega
      · rw [Nat.add_sub_cancel_left]
        exact hrotate
    have happ : a₁ ++ a₂ ++ (b₁ ++ b₂) = a₁ ++ (a₂ ++ b₁) ++ b₂ := by simp
    have happ' : a₁ ++ (b₁ ++ a₂) ++ b₂ = [] ++ (a₁ ++ b₁) ++ (a₂ ++ b₂) := by simp
    have hm2 : a₁.length + a₂.length + b₁.length - (a₁.length + b₁.length) = a₂.length := by omega
    have hlen₁ := hsort₁.length_eq
    have hlen₂ := hsort₂.length_eq
    simp only [List.length_append] at hlen₁ hlen₂
    rw [mergeHalves, happ, hwith, exec_bind_ok]
    simp only [hm2, happ']
    split
    · have hfirst : onRange ([] ++ (a₁ ++ b₁) ++ (a₂ ++ b₂)) 0 (a₁.length + b₁.length)
          (fun l => again l a₁.length a₁.length b₁.length) = .ok ([] ++ r₁ ++ (a₂ ++ b₂)) :=
        onRange_append rfl (by simp) hrun₁
      rw [hfirst, exec_bind_ok, List.nil_append]
      have hsecond : onRange (r₁ ++ (a₂ ++ b₂) ++ []) (a₁.length + b₁.length)
          (r₁ ++ (a₂ ++ b₂) ++ []).length (fun l => again l a₂.length a₂.length b₂.length) =
          .ok (r₁ ++ r₂ ++ []) :=
        onRange_append hlen₁.symm (by simp) hrun₂
      simpa only [List.append_nil] using hsecond
    · have hfirst : onRange ([] ++ (a₁ ++ b₁) ++ (a₂ ++ b₂) ++ []) (a₁.length + b₁.length)
          ([] ++ (a₁ ++ b₁) ++ (a₂ ++ b₂) ++ []).length
          (fun l => again l a₂.length a₂.length b₂.length) =
          .ok ([] ++ (a₁ ++ b₁) ++ r₂ ++ []) :=
        onRange_append (by simp) (by simp only [List.length_append, List.length_nil]; omega) hrun₂
      simp only [List.append_nil] at hfirst
      rw [hfirst, exec_bind_ok]
      exact onRange_append rfl (by simp) hrun₁
  · apply (hsort₁.append hsort₂ hle).of_stablePerm
    have hmid := (StablePerm.refl a₁).append ((StablePerm.swap h hswap).append (.refl b₂))
    simpa only [List.append_assoc] using hmid

/-- What lies below the cut is not above what lies over it. -/
theorem notAbove_of_swap {lt : α → α → Bool} (h : StrictWeakOrder lt) {a₁ a₂ b₁ b₂ : List α}
    (ha : Sorted lt (a₁ ++ a₂)) (hb : Sorted lt (b₁ ++ b₂))
    (hswap : ∀ x ∈ a₂, ∀ y ∈ b₁, lt y x = true) (hcross : NotAbove lt a₁ b₂) :
    NotAbove lt (a₁ ++ b₁) (a₂ ++ b₂) := by
  intro x hx y hy
  obtain hx | hx := List.mem_append.mp hx <;> obtain hy | hy := List.mem_append.mp hy
  · exact (List.pairwise_append.mp ha).2.2 x hx y hy
  · exact hcross x hx y hy
  · exact h.asymm (hswap y hy x hx)
  · exact (List.pairwise_append.mp hb).2.2 x hx y hy

/-- `again` merges any two sorted parts that are shorter together. -/
def MergesBelow (lt : α → α → Bool) (again : List α → Nat → Nat → Nat → Exec (List α))
    (n : Nat) : Prop :=
  ∀ a b, Sorted lt a → Sorted lt b → a.length + b.length < n →
    ∃ r, again (a ++ b) a.length a.length b.length = .ok r ∧ IsStableSort lt (a ++ b) r

theorem mergeHalves_of_below {lt : α → α → Bool} (h : StrictWeakOrder lt) (t : RangeTraits)
    {again : List α → Nat → Nat → Nat → Exec (List α)} {a₁ a₂ b₁ b₂ : List α}
    (ha : Sorted lt (a₁ ++ a₂)) (hb : Sorted lt (b₁ ++ b₂))
    (hagain : MergesBelow lt again ((a₁ ++ a₂).length + (b₁ ++ b₂).length))
    (hfirst : 0 < a₁.length + b₁.length) (hsecond : 0 < a₂.length + b₂.length)
    (hswap : ∀ x ∈ a₂, ∀ y ∈ b₁, lt y x = true) (hcross : NotAbove lt a₁ b₂) :
    ∃ r, mergeHalves t again (a₁ ++ a₂ ++ (b₁ ++ b₂)) a₁.length (a₁.length + a₂.length)
        (a₁.length + a₂.length + b₁.length) a₁.length a₂.length b₁.length b₂.length = .ok r ∧
      IsStableSort lt (a₁ ++ a₂ ++ (b₁ ++ b₂)) r := by
  obtain ⟨ha₁, ha₂, _⟩ := List.pairwise_append.mp ha
  obtain ⟨hb₁, hb₂, _⟩ := List.pairwise_append.mp hb
  simp only [List.length_append] at hagain
  obtain ⟨r₁, hrun₁, hsort₁⟩ := hagain a₁ b₁ ha₁ hb₁ (by omega)
  obtain ⟨r₂, hrun₂, hsort₂⟩ := hagain a₂ b₂ ha₂ hb₂ (by omega)
  exact mergeHalves_spec h t hrun₁ hsort₁ hrun₂ hsort₂ hswap (notAbove_of_swap h ha hb hswap hcross)

/-- The pivot is taken from the longer second part. -/
theorem mergeShrunk_upper (h : StrictWeakOrder pred) (t : RangeTraits) {k : Nat}
    {again : List α → Nat → Nat → Nat → Exec (List α)} {a b : List α} (hne : a ≠ [])
    (ha : Sorted (projected pred proj) a) (hb : Sorted (projected pred proj) b)
    (hk : ¬ (a.length ≤ k ∨ b.length ≤ k)) (hlt : a.length < b.length)
    (hagain : MergesBelow (projected pred proj) again (a.length + b.length)) :
    ∃ r, mergeShrunk pred proj t k again (a ++ b) a.length a.length b.length = .ok r ∧
      IsStableSort (projected pred proj) (a ++ b) r := by
  have hproj := h.projected proj
  have hapos := List.length_pos_of_ne_nil hne
  have hmid : b.length / 2 < b.length := by omega
  obtain ⟨b₁, v, b₂, hsplit, hb₁⟩ := exists_cut_at hmid
  subst hsplit
  obtain ⟨a₁, a₂, rfl, hupper, ha₁, ha₂⟩ := upperBound_spec h t.sized ha v
  have hderef : deref (a₁ ++ a₂ ++ (b₁ ++ v :: b₂)) ((a₁ ++ a₂).length + b₁.length) = .ok v := by
    rw [← List.length_append, ← List.append_assoc]
    exact deref_append _ v b₂
  have htake : (a₁ ++ a₂ ++ (b₁ ++ v :: b₂)).take (a₁ ++ a₂).length = a₁ ++ a₂ := List.take_left
  -- everything in front of the pivot is not greater than it, everything behind not less
  have hbv : ∀ y ∈ b₁, projected pred proj v y = false := fun y hy =>
    (List.pairwise_append.mp hb).2.2 y hy v (by simp)
  have hvb : ∀ w ∈ v :: b₂, projected pred proj w v = false := by
    intro w hw
    obtain rfl | hw := List.mem_cons.mp hw
    · exact hproj.not_self w
    · exact (List.pairwise_cons.mp (List.pairwise_append.mp hb).2.1).1 w hw
  have hhalves := mergeHalves_of_below hproj t ha hb hagain
    (by simp only [List.length_append, List.length_cons] at hlt hb₁ hapos; omega) (by simp)
    (fun x hx y hy => hproj.lt_of_not_lt_of_lt (hbv y hy) (ha₂ x hx))
    (fun x hx w hw => hproj.not_lt_trans (ha₁ x hx) (hvb w hw))
  rw [mergeShrunk, if_neg hk, if_pos hlt, ← hb₁]
  simp only [hderef, exec_bind_ok, htake, hupper]
  have hlen₁ : (a₁ ++ a₂).length - a₁.length = a₂.length := by simp
  have hlen₂ : (b₁ ++ v :: b₂).length - b₁.length = (v :: b₂).length := by simp
  rw [hlen₁, hlen₂, List.length_append]
  exact hhalves

/-- The pivot is taken from the first part. -/
theorem mergeShrunk_lower (h : StrictWeakOrder pred) (t : RangeTraits) {k : Nat}
    {again : List α → Nat → Nat → Nat → Exec (List α)} {a b : List α}
    (ha : Sorted (projected pred proj) a) (hb : Sorted (projected pred proj) b)
    (hk : ¬ (a.length ≤ k ∨ b.length ≤ k)) (hlt : ¬ a.length < b.length) (hone : 1 < a.length)
    (hagain : MergesBelow (projected pred proj) again (a.length + b.length)) :
    ∃ r, mergeShrunk pred proj t k again (a ++ b) a.length a.length b.length = .ok r ∧
      IsStableSort (projected pred proj) (a ++ b) r := by
  have hproj := h.projected proj
  have hmid : a.length / 2 < a.length := by omega
  obtain ⟨a₁, v, a₂, hsplit, ha₁⟩ := exists_cut_at hmid
  subst hsplit
  obtain ⟨b₁, b₂, rfl, hlower, hb₁, hb₂⟩ := lowerBound_spec h t.sized hb v
  have hderef : deref (a₁ ++ v :: a₂ ++ (b₁ ++ b₂)) a₁.length = .ok v := by
    rw [List.append_assoc]
    exact deref_append a₁ v (a₂ ++ (b₁ ++ b₂))
  have hdrop : (a₁ ++ v :: a₂ ++ (b₁ ++ b₂)).drop (a₁ ++ v :: a₂).length = b₁ ++ b₂ :=
    List.drop_left
  have hav : ∀ x ∈ a₁, projected pred proj v x = false := fun x hx =>
    (List.pairwise_append.mp ha).2.2 x hx v (by simp)
  have hva : ∀ x ∈ v :: a₂, projected pred proj x v = false := by
    intro x hx
    obtain rfl | hx := List.mem_cons.mp hx
    · exact hproj.not_self x
    · exact (List.pairwise_cons.mp (List.pairwise_append.mp ha).2.1).1 x hx
  have hhalves := mergeHalves_of_below hproj t ha hb hagain (by omega) (by simp)
    (fun x hx y hy => hproj.lt_of_lt_of_not_lt (hb₁ y hy) (hva x hx))
    (fun x hx w hw => hproj.not_lt_trans (hav x hx) (hb₂ w hw))
  rw [mergeShrunk, if_neg hk, if_neg hlt, if_neg (by omega), ← ha₁]
  simp only [hderef, exec_bind_ok, hdrop, hlower]
  have hlen₁ : (a₁ ++ v :: a₂).length - a₁.length = (v :: a₂).length := by simp
  have hlen₂ : (b₁ ++ b₂).length - b₁.length = b₂.length := by simp
  rw [hlen₁, hlen₂, List.length_append]
  exact hhalves

theorem mergeShrunk_spec (h : StrictWeakOrder pred) (t : RangeTraits) (k : Nat)
    {again : List α → Nat → Nat → Nat → Exec (List α)} {x y : α} {a b : List α}
    (ha : Sorted (projected pred proj) (x :: a)) (hb : Sorted (projected pred proj) (y :: b))
    (hyx : projected pred proj y x = true)
    (hagain : MergesBelow (projected pred proj) again ((x :: a).length + (y :: b).length)) :
    ∃ r, mergeShrunk pred proj t k again (x :: a ++ y :: b) (x :: a).length (x :: a).length
        (y :: b).length = .ok r ∧ IsStableSort (projected pred proj) (x :: a ++ y :: b) r := by
  by_cases hk : (x :: a).length ≤ k ∨ (y :: b).length ≤ k
  · rw [mergeShrunk, if_pos hk, mergeAdaptiveImpl_spec h ha hb hk]
    exact ⟨_, rfl, isStableSort_merge (h.projected proj) ha hb⟩
  by_cases hlt : (x :: a).length < (y :: b).length
  · exact mergeShrunk_upper h t (by simp) ha hb hk hlt hagain
  by_cases hone : (x :: a).length = 1
  · -- one element on each side, in the wrong order
    have hanil : a = [] := List.eq_nil_of_length_eq_zero (by simpa using hone)
    subst hanil
    have hbnil : b = [] := List.eq_nil_of_length_eq_zero (by simpa using hlt)
    subst hbnil
    rw [mergeShrunk, if_neg hk, if_neg hlt, if_pos hone]
    refine ⟨[y, x], rfl, ?_, ?_⟩
    · exact List.pairwise_pair.mpr ((h.projected proj).asymm hyx)
    · apply StablePerm.swap (l := [x]) (m := [y]) (h.projected proj)
      intro z hz w hw
      rw [List.mem_singleton.mp hz, List.mem_singleton.mp hw]
      exact hyx
  · have hpos : (x :: a).length ≠ 0 := by simp
    exact mergeShrunk_lower h t ha hb hk hlt (by omega) hagain

/-- The two parts sorted and the fuel covering the length, the range is stably sorted. -/
theorem mergeAdaptive_spec (h : StrictWeakOrder pred) (t : RangeTraits) (k fuel : Nat)
    {a b : List α} (ha : Sorted (projected pred proj) a) (hb : Sorted (projected pred proj) b)
    (hfuel : a.length + b.length < fuel) :
    ∃ r, mergeAdaptive pred proj t k fuel (a ++ b) a.length a.length b.length = .ok r ∧
      IsStableSort (projected pred proj) (a ++ b) r := by
  have hproj := h.projected proj
  induction fuel generalizing a b with
  | zero => omega
  | succ fuel ih =>
    rw [mergeAdaptive]
    cases b with
    | nil => exact ⟨a, by simp, by simpa using IsStableSort.self ha⟩
    | cons y b =>
      have hyb : ∀ w ∈ y :: b, projected pred proj w y = false := by
        intro w hw
        obtain rfl | hw := List.mem_cons.mp hw
        · exact hproj.not_self w
        · exact (List.pairwise_cons.mp hb).1 w hw
      rw [if_neg (by simp)]
      obtain ⟨hrun, hle⟩ | ⟨p, x, q, rfl, hp, hyx, hrun⟩ :=
        shrinkFirst_spec pred proj [] a y b
      · simp only [List.nil_append, List.length_nil, Nat.zero_add] at hrun
        rw [hrun, exec_bind_ok]
        refine ⟨a ++ y :: b, rfl, .self (sorted_append ha hb fun x hx w hw => ?_)⟩
        exact hproj.not_lt_trans (hle x hx) (hyb w hw)
      · simp only [List.nil_append, List.length_nil, Nat.zero_add] at hrun
        obtain ⟨hps, hqs, hpq⟩ := List.pairwise_append.mp ha
        have hbelow : MergesBelow (projected pred proj) (mergeAdaptive pred proj t k fuel)
            ((x :: q).length + (y :: b).length) := by
          intro a' b' ha' hb' hlen
          apply ih ha' hb'
          simp only [List.length_append] at hfuel
          omega
        obtain ⟨r, hshrunk, hr⟩ := mergeShrunk_spec h t k hqs hb hyx hbelow
        refine ⟨p ++ r, ?_, ?_⟩
        · have hmid : (p ++ x :: q).length - p.length = (x :: q).length := by simp
          have hrange : onRange (p ++ (x :: q ++ y :: b) ++ []) p.length
              (p ++ (x :: q ++ y :: b) ++ []).length
              (fun l => mergeShrunk pred proj t k (mergeAdaptive pred proj t k fuel) l
                ((p ++ x :: q).length - p.length) (x :: q).length (y :: b).length) =
              .ok (p ++ r ++ []) :=
            onRange_append rfl (by simp only [List.append_nil, List.length_append])
              (by rw [hmid]; exact hshrunk)
          rw [hrun, exec_bind_ok]
          simpa only [List.append_nil, List.append_assoc] using hrange
        · rw [List.append_assoc]
          apply (IsStableSort.self hps).append hr
          intro z hz w hw
          obtain hw | hw := List.mem_append.mp hw
          · exact hpq z hz w hw
          · exact hproj.not_lt_trans (hp z hz) (hyb w hw)

/-- Whatever the buffer, the result is the stable merge. -/
theorem mergeAdaptive_eq_merge (h : StrictWeakOrder pred) (t : RangeTraits) (k : Nat)
    {a b : List α} (ha : Sorted (projected pred proj) a) (hb : Sorted (projected pred proj) b) :
    Returns (fun fuel => mergeAdaptive pred proj t k fuel (a ++ b) a.length a.length b.length)
      (stableMerge (projected pred proj) a b) := by
  refine ⟨a.length + b.length + 1, fun fuel hfuel => ?_⟩
  obtain ⟨r, hrun, hr⟩ := mergeAdaptive_spec h t k fuel ha hb (by omega)
  rw [← hr.unique (h.projected proj) (isStableSort_merge (h.projected proj) ha hb)]
  exact hrun

theorem mergeBehind_eq (pred : κ → κ → Bool) (proj : α → κ) (a b : List α) :
    mergeBehind pred proj a b = .ok (stableMerge (projected pred proj) a b) := by
  have hall := withBuffer_holds (a ++ b) (a ++ b).length
  have hlen : (a ++ b).length = a.length + b.length := List.length_append
  have hw := withBuffer_writable (a ++ b) (Nat.le_of_eq hlen.symm)
  have hmlen : (stableMerge (projected pred proj) a b).length = a.length + b.length :=
    List.length_merge ..
  have htrails : Trails ⟨(a ++ b).length, false, true⟩ ⟨0, false, false⟩ b.length a.length := by
    intro i j hj hi
    simp only [Ptr.cell, Bool.false_eq_true, if_false]
    omega
  have htrails' : Trails ⟨(a ++ b).length, false, true⟩ ⟨a.length, false, false⟩ a.length
      b.length := by
    intro i j hj hi
    simp only [Ptr.cell, Bool.false_eq_true, if_false]
    omega
  obtain ⟨s', hrun, hout, _⟩ := merge_spec pred proj (holds_append.mp hall).1 (holds_second hall) hw
    htrails htrails'
  have hload := loadMany_of_holds hout
  rw [hmlen, ← hlen] at hload
  rw [mergeBehind, hrun, exec_bind_ok]
  exact hload

end EARanges.Algorithm
