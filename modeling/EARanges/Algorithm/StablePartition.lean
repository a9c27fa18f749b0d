import EARanges.Algorithm.Rotate
import EARanges.Utility.Memory

/-!
# `stable_partition`

algorithm/stable_partition.hpp, both implementations, and the loop of
algorithm/partition_copy.hpp. The forward one works on `[first, last)`, the bidirectional
one on `[first, last]` with `*last` known to be true; `len` is an argument of its own in
both. A buffer is the list of what has been constructed in it, and constructing past its
capacity faults.
-/
namespace EARanges.Algorithm
open EARanges.Support EARanges.Utility

variable {α κ : Type}

/-- `*buf = x; ++buf` for the iterator of a raw buffer. -/
def construct (bufSize : Nat) (buf : List α) (x : α) : Exec (List α) :=
  if buf.length < bufSize then .ok (buf ++ [x]) else .error .fault

/-- `move(p.first, end of what was constructed, out)`; returns the end of the output. -/
def moveFromBuffer (l : List α) : List α → Nat → Exec (List α × Nat)
  | [], out => .ok (l, out)
  | x :: buf, out => do
    let l ← assign l out x
    moveFromBuffer l buf (out + 1)

section
variable (pred : κ → Bool) (proj : α → κ)

/-- The loop of `partition_copy(first, first + count, out1, buf)`, the second output being
a raw buffer; returns the range, `in`, `out1` and the buffer. -/
def partitionCopy (bufSize : Nat) (l : List α) : Nat → Nat → Nat → List α →
    Exec (List α × Nat × Nat × List α)
  | 0, first, out1, buf => .ok (l, first, out1, buf)
  | count + 1, first, out1, buf => do
    let x ← deref l first
    if pred (proj x) then do
      let l ← assign l out1 x
      partitionCopy bufSize l count (first + 1) (out1 + 1) buf
    else do
      let buf ← construct bufSize buf x
      partitionCopy bufSize l count (first + 1) out1 buf

/-- `while(pred(*m1)) { if(++m1 == last) …; --len_half; }`; `none` when `last` is reached. -/
def skipTrues (l : List α) (last : Nat) : Nat → Nat → Nat → Exec (Option (Nat × Nat))
  | 0, _, _ => .error .fuel
  | fuel + 1, m1, lenHalf => do
    let x ← deref l m1
    if pred (proj x) then
      let m1 := m1 + 1
      if m1 = last then .ok none
      else skipTrues l last fuel m1 (lenHalf - 1)
    else .ok (some (m1, lenHalf))

/-- `while(!pred(*--m1)) { if(m1 == first) …; --len_half; }`; `none` when `first` is
reached. -/
def skipFalsesBack (l : List α) : Nat → Nat → Exec (Option (Nat × Nat))
  | 0, _ => .error .fault
  | m1 + 1, lenHalf => do
    let x ← deref l m1
    if pred (proj x) then .ok (some (m1, lenHalf))
    else if m1 = 0 then .ok none
    else skipFalsesBack l m1 (lenHalf - 1)

/-- The buffered case of the forward implementation. -/
def bufferedForward (bufSize : Nat) (l : List α) : Exec (List α × Nat) := do
  let x ← deref l 0
  let buf ← construct bufSize [] x
  let (l, _, out1, buf) ← partitionCopy pred proj bufSize l (l.length - 1) 1 0 buf
  let (l, _) ← moveFromBuffer l buf out1
  .ok (l, out1)

/-- The forward implementation. `*first` is known to be false. -/
def stablePartitionForwardImpl (t : RangeTraits) (bufSize : Nat) :
    Nat → List α → Nat → Exec (List α × Nat)
  | 0, _, _ => .error .fuel
  | fuel + 1, l, len =>
    if len = 1 then .ok (l, 0)
    else if len = 2 then do
      let tmp := 1
      let x ← deref l tmp
      if pred (proj x) then do
        let l ← iterSwap l 0 tmp
        .ok (l, tmp)
      else .ok (l, 0)
    else if len ≤ bufSize then bufferedForward pred proj bufSize l
    else do
      let half := len / 2
      let middle := half
      let (l, beginFalse) ← onRangeWith l 0 middle fun s =>
        stablePartitionForwardImpl t bufSize fuel s half
      match ← skipTrues pred proj l l.length l.length middle (len - half) with
      | none => do
        let (l, it) ← onRangeWith l beginFalse l.length fun s => rotate t s (middle - beginFalse)
        .ok (l, beginFalse + it)
      | some (m1, lenHalf) => do
        let (l, endFalse) ← onRangeWith l m1 l.length fun s =>
          stablePartitionForwardImpl t bufSize fuel s lenHalf
        let endFalse := m1 + endFalse
        let (l, it) ← onRangeWith l beginFalse endFalse fun s => rotate t s (middle - beginFalse)
        .ok (l, beginFalse + it)

/-- The buffered case of the bidirectional implementation. -/
def bufferedBidirectional (bufSize : Nat) (l : List α) : Exec (List α × Nat) := do
  let x ← deref l 0
  let buf ← construct bufSize [] x
  let (l, res, first, buf) ← partitionCopy pred proj bufSize l (l.length - 2) 1 0 buf
  let y ← deref l res
  let l ← assign l first y
  let first := first + 1
  let (l, _) ← moveFromBuffer l buf first
  .ok (l, first)

/-- The bidirectional implementation up to the label `first_half_done`, its calls to itself
going through `again`; returns the range and `begin_false`. -/
def partitionFirstHalf (again : List α → Nat → Exec (List α × Nat)) (l : List α)
    (middle half : Nat) : Exec (List α × Nat) := do
  match ← skipFalsesBack pred proj l middle half with
  | none => .ok (l, 0)
  | some (m1, lenHalf) => onRangeWith l 0 (m1 + 1) fun s => again s lenHalf

/-- The bidirectional implementation, on the list of `[first, last]`. `*first` is known to
be false, `*last` to be true. -/
def stablePartitionBidirectionalImpl (t : RangeTraits) (bufSize : Nat) :
    Nat → List α → Nat → Exec (List α × Nat)
  | 0, _, _ => .error .fuel
  | fuel + 1, l, len =>
    let last := l.length - 1
    if len = 2 then do
      let l ← iterSwap l 0 last
      .ok (l, last)
    else if len = 3 then do
      let tmp := 1
      let x ← deref l tmp
      if pred (proj x) then do
        let l ← iterSwap l 0 tmp
        let l ← iterSwap l tmp last
        .ok (l, last)
      else do
        let l ← iterSwap l tmp last
        let l ← iterSwap l 0 tmp
        .ok (l, tmp)
    else if len ≤ bufSize then bufferedBidirectional pred proj bufSize l
    else do
      let half := len / 2
      let middle := half
      let (l, beginFalse) ←
        partitionFirstHalf pred proj (stablePartitionBidirectionalImpl t bufSize fuel) l middle half
      match ← skipTrues pred proj l last l.length middle (len - half) with
      | none => do
        let last := last + 1
        let (l, it) ← onRangeWith l beginFalse last fun s => rotate t s (middle - beginFalse)
        .ok (l, beginFalse + it)
      | some (m1, lenHalf) => do
        let (l, endFalse) ← onRangeWith l m1 (last + 1) fun s =>
          stablePartitionBidirectionalImpl t bufSize fuel s lenHalf
        let endFalse := m1 + endFalse
        let (l, it) ← onRangeWith l beginFalse endFalse fun s => rotate t s (middle - beginFalse)
        .ok (l, beginFalse + it)

/-- The first false element, or the end. -/
def firstFalse (l : List α) : Nat → Nat → Exec Nat
  | 0, _ => .error .fuel
  | fuel + 1, first =>
    if first = l.length then .ok first
    else do
      let x ← deref l first
      if pred (proj x) then firstFalse l fuel (first + 1) else .ok first

/-- `do { if(first == --last) … } while(!pred(*last))`; `none` when `first` is reached. -/
def lastTrue (l : List α) (first : Nat) : Nat → Exec (Option Nat)
  | 0 => .error .fault
  | last + 1 =>
    if first = last then .ok none
    else do
      let x ← deref l last
      if pred (proj x) then .ok (some last) else lastTrue l first last

/-- What the forward implementation does for a whole range. -/
def stablePartitionForward (t : RangeTraits) (getBuffer : Nat → TemporaryBuffer) (fuel : Nat)
    (l : List α) : Exec (List α × Nat) := do
  let allocLimit := 3
  let first ← firstFalse pred proj l (l.length + 1) 0
  if first = l.length then .ok (l, first)
  else do
    let len := l.length - first
    let p : TemporaryBuffer := if allocLimit ≤ len then getBuffer len else ⟨false, 0⟩
    let (l, it) ← onRangeWith l first l.length fun s =>
      stablePartitionForwardImpl pred proj t p.second fuel s len
    .ok (l, first + it)

/-- What the bidirectional implementation does for a whole range. -/
def stablePartitionBidirectional (t : RangeTraits) (getBuffer : Nat → TemporaryBuffer)
    (fuel : Nat) (l : List α) : Exec (List α × Nat) := do
  let allocLimit := 4
  let first ← firstFalse pred proj l (l.length + 1) 0
  if first = l.length then .ok (l, first)
  else
    match ← lastTrue pred proj l first l.length with
    | none => .ok (l, first)
    | some last => do
      let len := last - first + 1
      let p : TemporaryBuffer := if allocLimit ≤ len then getBuffer len else ⟨false, 0⟩
      let (l, it) ← onRangeWith l first (last + 1) fun s =>
        stablePartitionBidirectionalImpl pred proj t p.second fuel s len
      .ok (l, first + it)

/-- `stable_partition`, by the iterator's tag. The buffer is asked for by its length. -/
def stablePartition (t : RangeTraits) (getBuffer : Nat → TemporaryBuffer) (fuel : Nat)
    (l : List α) : Exec (List α × Nat) :=
  match t.tag with
  | .forward => stablePartitionForward pred proj t getBuffer fuel l
  | _ => stablePartitionBidirectional pred proj t getBuffer fuel l

end

variable {pred : κ → Bool} {proj : α → κ}

/-! ## Trues and falses -/

section
variable (pred proj)

def trues (l : List α) : List α := l.filter fun x => pred (proj x)

def falses (l : List α) : List α := l.filter fun x => !pred (proj x)

/-- The trues in front of the falses, each in their order, and the boundary. -/
def stablyPartitioned (l : List α) : List α × Nat :=
  (trues pred proj l ++ falses pred proj l, (trues pred proj l).length)

end

@[simp] theorem trues_append (l m : List α) :
    trues pred proj (l ++ m) = trues pred proj l ++ trues pred proj m := List.filter_append ..

@[simp] theorem falses_append (l m : List α) :
    falses pred proj (l ++ m) = falses pred proj l ++ falses pred proj m := List.filter_append ..

theorem trues_cons_true {x : α} (h : pred (proj x) = true) (l : List α) :
    trues pred proj (x :: l) = x :: trues pred proj l := List.filter_cons_of_pos h

theorem trues_cons_false {x : α} (h : pred (proj x) = false) (l : List α) :
    trues pred proj (x :: l) = trues pred proj l := List.filter_cons_of_neg (by simp [h])

theorem falses_cons_true {x : α} (h : pred (proj x) = true) (l : List α) :
    falses pred proj (x :: l) = falses pred proj l := List.filter_cons_of_neg (by simp [h])

theorem falses_cons_false {x : α} (h : pred (proj x) = false) (l : List α) :
    falses pred proj (x :: l) = x :: falses pred proj l := List.filter_cons_of_pos (by simp [h])

theorem length_trues_add_falses (pred : κ → Bool) (proj : α → κ) (l : List α) :
    (trues pred proj l).length + (falses pred proj l).length = l.length := by
  have h := List.length_eq_length_filter_add (l := l) fun x => pred (proj x)
  simp only [trues, falses]
  omega

theorem length_trues_append_falses (pred : κ → Bool) (proj : α → κ) (l : List α) :
    (trues pred proj l ++ falses pred proj l).length = l.length := by
  rw [List.length_append, length_trues_add_falses]

section
variable {l : List α}

theorem trues_of_all (h : ∀ x ∈ l, pred (proj x) = true) : trues pred proj l = l :=
  List.filter_eq_self.mpr h

theorem falses_of_all (h : ∀ x ∈ l, pred (proj x) = true) : falses pred proj l = [] := by
  apply List.filter_eq_nil_iff.mpr
  intro x hx
  simp [h x hx]

theorem trues_of_none (h : ∀ x ∈ l, pred (proj x) = false) : trues pred proj l = [] := by
  apply List.filter_eq_nil_iff.mpr
  intro x hx
  simp [h x hx]

theorem falses_of_none (h : ∀ x ∈ l, pred (proj x) = false) : falses pred proj l = l := by
  apply List.filter_eq_self.mpr
  intro x hx
  simp [h x hx]

end

/-! ## The scans -/

theorem exists_concat {l : List α} (h : l ≠ []) : ∃ a z, l = a ++ [z] :=
  ⟨l.dropLast, l.getLast h, (List.dropLast_append_getLast h).symm⟩

/-- Elements that are true and do not end the range are passed one by one. -/
theorem skipTrues_skip {a b c : List α} {last : Nat} (hb : ∀ x ∈ b, pred (proj x) = true)
    (hlast : a.length + b.length < last) (fuel lenHalf : Nat) :
    skipTrues pred proj (a ++ (b ++ c)) last (b.length + fuel) a.length lenHalf =
      skipTrues pred proj (a ++ (b ++ c)) last fuel (a.length + b.length)
        (lenHalf - b.length) := by
  induction b generalizing a lenHalf with
  | nil => rw [List.length_nil, Nat.zero_add, Nat.add_zero, Nat.sub_zero]
  | cons x b ih =>
    obtain ⟨hx, hb⟩ := List.forall_mem_cons.mp hb
    rw [List.length_cons] at hlast
    have hrest := ih (a := a ++ [x]) hb (by rw [List.length_append, List.length_singleton]; omega)
      (lenHalf - 1)
    rw [List.length_append, List.length_singleton, List.append_assoc, Nat.add_right_comm,
      Nat.sub_sub, Nat.add_comm 1] at hrest
    rw [List.length_cons, Nat.succ_add, skipTrues, List.cons_append, deref_append, exec_bind_ok,
      if_pos hx]
    dsimp only
    rw [if_neg (by omega)]
    exact hrest

theorem skipTrues_all {a b c : List α} {last fuel : Nat} (hb : b ≠ [])
    (hall : ∀ x ∈ b, pred (proj x) = true) (hlast : last = a.length + b.length)
    (hfuel : b.length ≤ fuel) (lenHalf : Nat) :
    skipTrues pred proj (a ++ b ++ c) last fuel a.length lenHalf = .ok none := by
  obtain ⟨b, z, rfl⟩ := exists_concat hb
  rw [List.length_append, List.length_singleton] at hlast hfuel
  obtain ⟨fuel, rfl⟩ := Nat.exists_eq_add_of_le hfuel
  have hlist : a ++ (b ++ [z]) ++ c = a ++ (b ++ z :: c) := by simp
  have hread : deref (a ++ (b ++ z :: c)) (a.length + b.length) = .ok z := by
    rw [← List.append_assoc, ← List.length_append]
    exact deref_append (a ++ b) z c
  rw [hlist, Nat.add_assoc, skipTrues_skip (fun x hx => hall x (List.mem_append_left [z] hx))
    (by omega), Nat.add_comm 1, skipTrues, hread, exec_bind_ok,
    if_pos (hall z (List.mem_append_right b (List.mem_singleton_self z)))]
  exact if_pos hlast.symm

theorem skipTrues_some {a b c : List α} {y : α} {last fuel : Nat}
    (hb : ∀ x ∈ b, pred (proj x) = true) (hy : pred (proj y) = false)
    (hlast : a.length + b.length < last) (hfuel : b.length < fuel) (lenHalf : Nat) :
    skipTrues pred proj (a ++ b ++ y :: c) last fuel a.length lenHalf =
      .ok (some (a.length + b.length, lenHalf - b.length)) := by
  obtain ⟨fuel, rfl⟩ := Nat.exists_eq_add_of_lt hfuel
  have hread : deref (a ++ (b ++ y :: c)) (a.length + b.length) = .ok y := by
    rw [← List.append_assoc, ← List.length_append]
    exact deref_append (a ++ b) y c
  rw [List.append_assoc, Nat.add_assoc, skipTrues_skip hb hlast, skipTrues, hread, exec_bind_ok,
    if_neg (by simp [hy])]

theorem skipFalsesBack_none {a c : List α} (ha : a ≠ []) (hnone : ∀ x ∈ a, pred (proj x) = false)
    (lenHalf : Nat) : skipFalsesBack pred proj (a ++ c) a.length lenHalf = .ok none := by
  induction a using List.reverseRecOn generalizing c lenHalf with
  | nil => exact absurd rfl ha
  | append_singleton a x ih =>
    have hx := hnone x (by simp)
    have hread := deref_append a x c
    rw [List.length_append, List.length_singleton, List.append_assoc, List.singleton_append,
      skipFalsesBack, hread, exec_bind_ok, if_neg (by simp [hx])]
    by_cases hnil : a = []
    · subst hnil
      rfl
    · have hpos := List.length_pos_of_ne_nil hnil
      rw [if_neg (by omega)]
      exact ih hnil (fun z hz => hnone z (by simp [hz])) (lenHalf - 1)

theorem skipFalsesBack_some {a b c : List α} {y : α} (hy : pred (proj y) = true)
    (hb : ∀ x ∈ b, pred (proj x) = false) (lenHalf : Nat) :
    skipFalsesBack pred proj (a ++ y :: b ++ c) (a.length + 1 + b.length) lenHalf =
      .ok (some (a.length, lenHalf - b.length)) := by
  induction b using List.reverseRecOn generalizing c lenHalf with
  | nil =>
    have hread : deref (a ++ [y] ++ c) a.length = .ok y := by
      rw [List.append_assoc]
      exact deref_append a y c
    rw [List.length_nil, Nat.add_zero, skipFalsesBack, hread, exec_bind_ok, if_pos hy]
    rfl
  | append_singleton b x ih =>
    have hx := hb x (by simp)
    have hread : deref (a ++ y :: (b ++ [x]) ++ c) (a.length + 1 + b.length) = .ok x := by
      have := deref_append (a ++ y :: b) x c
      simpa [Nat.add_assoc, Nat.add_comm 1] using this
    have hrest := ih (c := x :: c) (fun z hz => hb z (by simp [hz])) (lenHalf - 1)
    rw [List.length_append, List.length_singleton, ← Nat.add_assoc, skipFalsesBack, hread,
      exec_bind_ok, if_neg (by simp [hx]), if_neg (by omega)]
    have hlist : a ++ y :: (b ++ [x]) ++ c = a ++ y :: b ++ x :: c := by simp
    rw [hlist, hrest, Nat.sub_sub, Nat.add_comm 1]

/-! ## Through the buffer -/

theorem construct_ok {bufSize : Nat} {buf : List α} (h : buf.length < bufSize) (x : α) :
    construct bufSize buf x = .ok (buf ++ [x]) := if_pos h

/-- Between the trues in front and what is still to read lies a gap of moved-from elements,
never empty: the first false element leaves it before the loop begins. -/
theorem partitionCopy_spec (pred : κ → Bool) (proj : α → κ) {bufSize : Nat}
    (ts gap rest tail buf : List α) (hgap : gap ≠ [])
    (hcap : buf.length + rest.length ≤ bufSize) :
    ∃ gap', gap'.length = gap.length + (falses pred proj rest).length ∧
      partitionCopy pred proj bufSize (ts ++ gap ++ rest ++ tail) rest.length
        (ts.length + gap.length) ts.length buf =
      .ok (ts ++ trues pred proj rest ++ gap' ++ tail, ts.length + gap.length + rest.length,
        ts.length + (trues pred proj rest).length, buf ++ falses pred proj rest) := by
  induction rest generalizing ts gap buf with
  | nil => exact ⟨gap, rfl, by simp [partitionCopy, trues, falses]⟩
  | cons x rest ih =>
    rw [List.length_cons] at hcap
    have hread : deref (ts ++ gap ++ x :: rest ++ tail) (ts.length + gap.length) = .ok x := by
      rw [← List.length_append, List.append_assoc _ (x :: rest)]
      exact deref_append (ts ++ gap) x (rest ++ tail)
    rw [List.length_cons, partitionCopy, hread, exec_bind_ok]
    cases hx : pred (proj x) with
    | true =>
      obtain ⟨g, gap, rfl⟩ := List.exists_cons_of_ne_nil hgap
      have hwrite : assign (ts ++ g :: gap ++ x :: rest ++ tail) ts.length x =
          .ok (ts ++ [x] ++ (gap ++ [x]) ++ rest ++ tail) := by
        have := assign_append ts g x (gap ++ x :: rest ++ tail)
        simpa using this
      obtain ⟨gap', hlen, hrun⟩ := ih (ts ++ [x]) (gap ++ [x]) buf (by simp) (by omega)
      have hpos : (ts ++ [x]).length + (gap ++ [x]).length = ts.length + (gap.length + 1) + 1 := by
        simp only [List.length_append, List.length_singleton]
        omega
      rw [hpos, List.length_append, List.length_singleton] at hrun
      rw [if_pos rfl, hwrite, exec_bind_ok, List.length_cons, hrun, trues_cons_true hx,
        falses_cons_true hx]
      refine ⟨gap', by rw [hlen, List.length_append, List.length_singleton], ?_⟩
      simp only [List.append_assoc, List.singleton_append, List.length_cons, Except.ok.injEq,
        Prod.mk.injEq, true_and, and_true]
      omega
    | false =>
      obtain ⟨gap', hlen, hrun⟩ := ih ts (gap ++ [x]) (buf ++ [x]) (by simp) (by
        rw [List.length_append, List.length_singleton]
        omega)
      have hlist : ts ++ gap ++ x :: rest ++ tail = ts ++ (gap ++ [x]) ++ rest ++ tail := by simp
      have hpos : ts.length + (gap ++ [x]).length = ts.length + gap.length + 1 := by
        rw [List.length_append, List.length_singleton]
        omega
      rw [hpos] at hrun
      rw [if_neg (by simp), construct_ok (by omega), exec_bind_ok, hlist, hrun,
        trues_cons_false hx, falses_cons_false hx]
      refine ⟨gap', ?_, ?_⟩
      · rw [hlen, List.length_append, List.length_singleton, List.length_cons]
        omega
      · simp only [List.append_assoc, List.singleton_append, Except.ok.injEq, Prod.mk.injEq,
          true_and, and_true]
        omega

theorem moveFromBuffer_spec (a gap c buf : List α) (hlen : gap.length = buf.length) :
    moveFromBuffer (a ++ gap ++ c) buf a.length = .ok (a ++ buf ++ c, a.length + buf.length) := by
  induction buf generalizing a gap with
  | nil =>
    obtain rfl := List.length_eq_zero_iff.mp hlen
    rfl
  | cons x buf ih =>
    obtain ⟨g, gap, rfl⟩ := List.exists_cons_of_length_eq_add_one hlen
    have hwrite : assign (a ++ g :: gap ++ c) a.length x = .ok (a ++ [x] ++ gap ++ c) := by
      have := assign_append a g x (gap ++ c)
      simpa using this
    have hrest := ih (a ++ [x]) gap (by simpa using hlen)
    rw [List.length_append, List.length_singleton] at hrest
    rw [moveFromBuffer, hwrite, exec_bind_ok, hrest]
    simp only [List.append_assoc, List.singleton_append, List.length_cons, Except.ok.injEq,
      Prod.mk.injEq, true_and]
    omega

theorem bufferedForward_spec {bufSize : Nat} {x : α} {rest : List α}
    (hx : pred (proj x) = false) (hcap : (x :: rest).length ≤ bufSize) :
    bufferedForward pred proj bufSize (x :: rest) =
      .ok (stablyPartitioned pred proj (x :: rest)) := by
  rw [List.length_cons] at hcap
  have hroom : [x].length + rest.length ≤ bufSize := by
    rw [List.length_singleton]
    omega
  obtain ⟨gap, hgap, hrun⟩ := partitionCopy_spec pred proj [] [x] rest [] [x]
    (List.cons_ne_nil x []) hroom
  simp only [List.nil_append, List.append_nil, List.length_nil, List.length_singleton,
    Nat.zero_add, List.singleton_append] at hrun hgap
  have hback := moveFromBuffer_spec (trues pred proj rest) gap [] (x :: falses pred proj rest) (by
    rw [hgap, List.length_cons, Nat.add_comm])
  rw [List.append_nil, List.append_nil] at hback
  have hread : deref (x :: rest) 0 = .ok x := rfl
  rw [bufferedForward, hread, exec_bind_ok, construct_ok (by simp; omega), exec_bind_ok,
    List.nil_append, List.length_cons, Nat.add_sub_cancel, hrun, exec_bind_ok]
  dsimp only
  rw [hback, exec_bind_ok, stablyPartitioned, trues_cons_false hx, falses_cons_false hx]

theorem bufferedBidirectional_spec {bufSize : Nat} {x z : α} {mid : List α}
    (hx : pred (proj x) = false) (hz : pred (proj z) = true)
    (hcap : (x :: mid ++ [z]).length ≤ bufSize) :
    bufferedBidirectional pred proj bufSize (x :: mid ++ [z]) =
      .ok (stablyPartitioned pred proj (x :: mid ++ [z])) := by
  simp only [List.length_append, List.length_cons, List.length_nil] at hcap
  have hroom : [x].length + mid.length ≤ bufSize := by
    rw [List.length_singleton]
    omega
  obtain ⟨gap, hgap, hrun⟩ := partitionCopy_spec pred proj [] [x] mid [z] [x]
    (List.cons_ne_nil x []) hroom
  simp only [List.nil_append, List.length_nil, List.length_singleton, Nat.zero_add,
    List.singleton_append] at hrun hgap
  have hcount := length_trues_add_falses pred proj mid
  -- the last element is read behind the gap and written into it
  have hres : deref (trues pred proj mid ++ gap ++ [z]) (1 + mid.length) = .ok z := by
    have hpos : 1 + mid.length = (trues pred proj mid ++ gap).length := by
      rw [List.length_append]
      omega
    rw [hpos]
    exact deref_append _ z []
  obtain ⟨g, gap, rfl⟩ := List.exists_cons_of_length_pos (show 0 < gap.length by omega)
  have hwrite : assign (trues pred proj mid ++ g :: gap ++ [z]) (trues pred proj mid).length z =
      .ok (trues pred proj mid ++ [z] ++ (gap ++ [z])) := by
    have := assign_append (trues pred proj mid) g z (gap ++ [z])
    simpa using this
  have hback := moveFromBuffer_spec (trues pred proj mid ++ [z]) (gap ++ [z]) []
    (x :: falses pred proj mid) (by
      rw [List.length_cons] at hgap
      simp only [List.length_append, List.length_cons, List.length_nil]
      omega)
  rw [List.append_nil, List.append_nil, List.length_append, List.length_singleton] at hback
  have hlen : (x :: mid ++ [z]).length - 2 = mid.length := by simp
  have hread : deref (x :: mid ++ [z]) 0 = .ok x := rfl
  rw [bufferedBidirectional, hread, exec_bind_ok, construct_ok (by simp; omega), exec_bind_ok,
    List.nil_append, hlen, hrun, exec_bind_ok]
  dsimp only
  rw [hres, exec_bind_ok, hwrite, exec_bind_ok, hback, exec_bind_ok, stablyPartitioned,
    trues_append, falses_append, trues_cons_false hx, falses_cons_false hx, trues_cons_true hz,
    falses_cons_true hz]
  simp [trues, falses]

/-! ## In place -/

/-- The falses of the first half and the trues of the second change places. -/
theorem rotate_splice (t : RangeTraits) (ta fa tb fb : List α) {middle endFalse : Nat}
    (hmiddle : middle = (ta ++ fa).length) (hend : endFalse = middle + tb.length) :
    onRangeWith (ta ++ fa ++ (tb ++ fb)) ta.length endFalse
      (fun s => rotate t s (middle - ta.length)) =
      .ok (ta ++ tb ++ (fa ++ fb), tb.length) := by
  rw [List.length_append] at hmiddle
  have hsub : middle - ta.length = fa.length := by omega
  have hlast : endFalse = ta.length + (fa ++ tb).length := by
    rw [List.length_append]
    omega
  have hsplice := onRangeWith_append (p := ta) (q := fb) (f := fun s => rotate t s fa.length) rfl
    hlast (rotate_spec t fa tb)
  simp only [List.append_assoc] at hsplice ⊢
  rw [hsub]
  exact hsplice

/-- From the scan of the second half on: the half ends in `z`, which the scan does not
read, and the first half is already partitioned into `ta` and `fa`. -/
theorem secondHalf_spec (t : RangeTraits) (run : List α → Nat → Exec (List α × Nat))
    {ta fa b z : List α} (hb : b ≠ []) (hz : ∀ x ∈ z, pred (proj x) = true)
    (hrun : ∀ bt y c, b ++ z = bt ++ y :: c → pred (proj y) = false →
      run (y :: c) (y :: c).length = .ok (stablyPartitioned pred proj (y :: c)))
    {middle last stop fuel len : Nat} (hmiddle : middle = (ta ++ fa).length)
    (hlast : last = middle + b.length) (hstop : stop = last + z.length) (hfuel : b.length < fuel)
    (hlen : len = b.length + z.length) :
    (do
      match ← skipTrues pred proj (ta ++ fa ++ (b ++ z)) last fuel middle len with
      | none => do
        let (l, it) ← onRangeWith (ta ++ fa ++ (b ++ z)) ta.length stop fun s =>
          rotate t s (middle - ta.length)
        .ok (l, ta.length + it)
      | some (m1, lenHalf) => do
        let (l, endFalse) ← onRangeWith (ta ++ fa ++ (b ++ z)) m1 stop fun s => run s lenHalf
        let endFalse := m1 + endFalse
        let (l, it) ← onRangeWith l ta.length endFalse fun s => rotate t s (middle - ta.length)
        .ok (l, ta.length + it)) =
    (.ok (ta ++ trues pred proj (b ++ z) ++ (fa ++ falses pred proj (b ++ z)),
      ta.length + (trues pred proj (b ++ z)).length) : Exec (List α × Nat)) := by
  obtain hall | ⟨bt, y, c, rfl, hbt, hy⟩ := all_or_first (fun x => pred (proj x)) b
  · have hall' : ∀ x ∈ b ++ z, pred (proj x) = true := fun x hx =>
      (List.mem_append.mp hx).elim (hall x) (hz x)
    have hskip := skipTrues_all (c := z) hb hall (hlast.trans (by rw [hmiddle]))
      (Nat.le_of_lt hfuel) len
    have hend : stop = middle + (b ++ z).length := by
      rw [List.length_append, hstop, hlast, Nat.add_assoc]
    have hsplice := rotate_splice t ta fa (b ++ z) [] hmiddle hend
    rw [← hmiddle, List.append_assoc _ b] at hskip
    rw [List.append_nil (b ++ z)] at hsplice
    rw [hskip, exec_bind_ok]
    dsimp only
    rw [hsplice, exec_bind_ok, trues_of_all hall', falses_of_all hall']
  · have hc : bt ++ y :: c ++ z = bt ++ (y :: (c ++ z)) := by
      rw [List.append_assoc, List.cons_append]
    rw [List.length_append, List.length_cons] at hlast hfuel hlen
    have hskip := skipTrues_some (a := ta ++ fa) (c := c ++ z) hbt hy
      (show (ta ++ fa).length + bt.length < last by omega) (show bt.length < fuel by omega) len
    have hlenHalf : len - bt.length = (y :: (c ++ z)).length := by
      rw [List.length_cons, List.length_append]
      omega
    have hm1 : middle + bt.length = (ta ++ fa ++ bt).length := by
      rw [hmiddle, ← List.length_append]
    have hend : stop = (ta ++ fa ++ bt).length + (y :: (c ++ z)).length := by
      rw [← hm1, List.length_cons, List.length_append]
      omega
    have hrest := hrun bt y (c ++ z) hc hy
    rw [stablyPartitioned] at hrest
    have hsecond := onRangeWith_append (q := []) (f := fun s => run s (y :: (c ++ z)).length) hm1
      hend hrest
    have hback : middle + bt.length + (trues pred proj (y :: (c ++ z))).length =
        middle + (bt ++ trues pred proj (y :: (c ++ z))).length := by
      rw [List.length_append, Nat.add_assoc]
    have hsplice := rotate_splice t ta fa (bt ++ trues pred proj (y :: (c ++ z)))
      (falses pred proj (y :: (c ++ z))) hmiddle hback
    rw [← hmiddle, hlenHalf, List.append_assoc _ bt] at hskip
    rw [List.append_nil, List.append_nil, List.append_assoc _ bt, List.append_assoc _ bt] at hsecond
    rw [List.append_assoc bt] at hsplice
    rw [hc, hskip, exec_bind_ok]
    dsimp only
    rw [hsecond, exec_bind_ok]
    dsimp only
    rw [hsplice, exec_bind_ok, trues_append, falses_append, trues_of_all hbt, falses_of_all hbt,
      List.nil_append]

/-- The list is cut at half its length, behind its first element; both parts are shorter. -/
theorem exists_halves {l rest : List α} {x : α} (hl : l = x :: rest) (h : 3 ≤ l.length) :
    ∃ a b, l = x :: a ++ b ∧ (x :: a).length = l.length / 2 ∧
      b.length = l.length - l.length / 2 ∧ 2 ≤ b.length ∧ (x :: a).length < l.length ∧
      b.length < l.length := by
  obtain ⟨a, b, hcut, ha⟩ := exists_cut (show l.length / 2 ≤ l.length by omega)
  have hlen := congrArg List.length hcut
  obtain ⟨x', a, rfl⟩ := List.exists_cons_of_length_pos (show 0 < a.length by omega)
  obtain ⟨rfl, -⟩ := List.cons.inj (hl.symm.trans hcut)
  rw [List.length_append] at hlen
  exact ⟨a, b, hcut, ha, by omega, by omega, by omega, by omega⟩

/-- A false element is in front of the true one the list ends in. -/
theorem ends_behind {b bt c : List α} {y z : α} (hcut : b ++ [z] = bt ++ y :: c)
    (hy : pred (proj y) = false) (hz : pred (proj z) = true) : ∃ c', y :: c = y :: c' ++ [z] := by
  obtain ⟨c', z', hyc⟩ := exists_concat (List.cons_ne_nil y c)
  rw [hyc, ← List.append_assoc] at hcut
  obtain rfl : z = z' := (List.cons.inj (List.append_inj' hcut rfl).2).1
  cases c' with
  | nil =>
    obtain ⟨rfl, -⟩ := List.cons.inj hyc
    rw [hz] at hy
    cases hy
  | cons y' c' =>
    obtain ⟨rfl, -⟩ := List.cons.inj hyc
    exact ⟨c', hyc⟩

theorem stablyPartitioned_pair {x : α} (hx : pred (proj x) = false) (y : α) :
    stablyPartitioned pred proj [x, y] =
      if pred (proj y) then ([y, x], 1) else ([x, y], 0) := by
  rw [stablyPartitioned, trues_cons_false hx, falses_cons_false hx]
  cases hy : pred (proj y) with
  | true =>
    rw [trues_cons_true hy, falses_cons_true hy]
    rfl
  | false =>
    rw [trues_cons_false hy, falses_cons_false hy]
    rfl

theorem stablyPartitioned_triple {x z : α} (hx : pred (proj x) = false)
    (hz : pred (proj z) = true) (y : α) :
    stablyPartitioned pred proj [x, y, z] =
      if pred (proj y) then ([y, z, x], 2) else ([z, x, y], 1) := by
  rw [stablyPartitioned, trues_cons_false hx, falses_cons_false hx]
  cases hy : pred (proj y) with
  | true =>
    rw [trues_cons_true hy, falses_cons_true hy, trues_cons_true hz, falses_cons_true hz]
    rfl
  | false =>
    rw [trues_cons_false hy, falses_cons_false hy, trues_cons_true hz, falses_cons_true hz]
    rfl

theorem stablePartitionForwardImpl_spec (t : RangeTraits) (bufSize fuel : Nat) {x : α}
    {rest : List α} (hx : pred (proj x) = false) {len : Nat} (hlen : len = (x :: rest).length)
    (hfuel : len ≤ fuel) :
    stablePartitionForwardImpl pred proj t bufSize fuel (x :: rest) len =
      .ok (stablyPartitioned pred proj (x :: rest)) := by
  induction fuel generalizing x rest len with
  | zero =>
    rw [List.length_cons] at hlen
    omega
  | succ fuel ih =>
    rw [stablePartitionForwardImpl]
    by_cases hone : len = 1
    · obtain rfl : rest = [] := List.length_eq_zero_iff.mp (by rw [List.length_cons] at hlen; omega)
      rw [if_pos hone, stablyPartitioned, trues_cons_false hx, falses_cons_false hx]
      rfl
    by_cases htwo : len = 2
    · obtain ⟨y, rfl⟩ : ∃ y, rest = [y] :=
        List.length_eq_one_iff.mp (by rw [List.length_cons] at hlen; omega)
      have hread : deref [x, y] 1 = .ok y := rfl
      rw [if_neg hone, if_pos htwo, stablyPartitioned_pair hx]
      dsimp only
      rw [hread, exec_bind_ok]
      split <;> rfl
    rw [if_neg hone, if_neg htwo]
    by_cases hbuf : len ≤ bufSize
    · rw [if_pos hbuf]
      exact bufferedForward_spec hx (hlen ▸ hbuf)
    have hthree : 3 ≤ (x :: rest).length := by
      rw [List.length_cons] at hlen ⊢
      omega
    obtain ⟨a, b, hl, ha, hb, hbpos, halt, hblt⟩ := exists_halves rfl hthree
    -- the first half begins with the same false element
    have hfirst := ih hx rfl (show (x :: a).length ≤ fuel by omega)
    rw [stablyPartitioned] at hfirst
    have hhalf := onRangeWith_append (p := []) (q := b)
      (f := fun s => stablePartitionForwardImpl pred proj t bufSize fuel s (x :: a).length)
      rfl (Nat.zero_add _).symm hfirst
    rw [List.nil_append, List.nil_append, List.length_nil] at hhalf
    have hmiddle := (length_trues_append_falses pred proj (x :: a)).symm
    have hend : (trues pred proj (x :: a) ++ falses pred proj (x :: a) ++ b).length =
        (x :: a).length + b.length := by
      rw [List.length_append, hmiddle]
    have hnil : ∀ z ∈ ([] : List α), pred (proj z) = true := fun z hz => absurd hz List.not_mem_nil
    have hagain : ∀ bt y c, b ++ [] = bt ++ y :: c → pred (proj y) = false →
        stablePartitionForwardImpl pred proj t bufSize fuel (y :: c) (y :: c).length =
          .ok (stablyPartitioned pred proj (y :: c)) := by
      intro bt y c hbc hy
      have hlenb := congrArg List.length hbc
      rw [List.append_nil, List.length_append] at hlenb
      exact ih hy rfl (by omega)
    have hsecond := secondHalf_spec t _ (List.ne_nil_of_length_pos (by omega)) hnil hagain hmiddle
      rfl (Nat.add_zero _).symm (show b.length < (x :: a).length + b.length by omega)
      (Nat.add_zero _).symm
    rw [List.append_nil] at hsecond
    rw [if_neg hbuf]
    dsimp only
    rw [hlen, ← hb, ← ha, hl, hhalf, exec_bind_ok]
    dsimp only
    rw [hend, stablyPartitioned, trues_append, falses_append, List.length_append]
    exact hsecond

/-- The half begins with a false element. -/
theorem partitionFirstHalf_spec (run : List α → Nat → Exec (List α × Nat)) {x : α} {a b : List α}
    (hx : pred (proj x) = false)
    (hrun : ∀ c w f, x :: a = x :: c ++ w :: f → pred (proj w) = true →
      run (x :: c ++ [w]) (x :: c ++ [w]).length =
        .ok (stablyPartitioned pred proj (x :: c ++ [w]))) :
    partitionFirstHalf pred proj run (x :: a ++ b) (x :: a).length (x :: a).length =
      .ok (trues pred proj (x :: a) ++ falses pred proj (x :: a) ++ b,
        (trues pred proj (x :: a)).length) := by
  rw [partitionFirstHalf]
  obtain hnone | ⟨c, w, f, hcut, hw, hf⟩ := none_or_last (fun x => pred (proj x)) (x :: a)
  · rw [skipFalsesBack_none (List.cons_ne_nil x a) hnone, exec_bind_ok, trues_of_none hnone,
      falses_of_none hnone]
    rfl
  · -- the last true element is not the first element
    cases c with
    | nil =>
      obtain ⟨rfl, -⟩ := List.cons.inj hcut
      rw [hx] at hw
      cases hw
    | cons x' c =>
      obtain ⟨rfl, -⟩ := List.cons.inj hcut
      have hpos : (x :: a).length = (x :: c).length + 1 + f.length := by
        rw [hcut, List.length_append, List.length_cons (a := w)]
        omega
      have hskip := skipFalsesBack_some (a := x :: c) (c := b) hw hf (x :: a).length
      have hlenHalf : (x :: a).length - f.length = (x :: c ++ [w]).length := by
        rw [List.length_append, List.length_singleton]
        omega
      have hsub := hrun c w f hcut hw
      rw [stablyPartitioned] at hsub
      have hzero : 0 = ([] : List α).length := rfl
      have hrange := onRangeWith_append (q := f ++ b)
        (f := fun s => run s (x :: c ++ [w]).length) hzero (Nat.zero_add _).symm hsub
      have hlist : x :: a ++ b = [] ++ (x :: c ++ [w]) ++ (f ++ b) := by
        rw [hcut]
        simp
      rw [← hcut, ← hpos, hlenHalf] at hskip
      rw [hskip, exec_bind_ok]
      dsimp only
      have hstop : (x :: c).length + 1 = (x :: c ++ [w]).length := by
        rw [List.length_append, List.length_singleton]
      have hsplit : x :: a = x :: c ++ [w] ++ f := by
        rw [hcut]
        simp
      rw [hstop, hlist, hrange, hsplit, trues_append _ f, falses_append _ f, trues_of_none hf,
        falses_of_none hf]
      simp only [List.append_nil, List.nil_append, List.append_assoc]

theorem stablePartitionBidirectionalImpl_spec (t : RangeTraits) (bufSize fuel : Nat) {x z : α}
    {mid : List α} (hx : pred (proj x) = false) (hz : pred (proj z) = true) {len : Nat}
    (hlen : len = (x :: mid ++ [z]).length) (hfuel : len ≤ fuel) :
    stablePartitionBidirectionalImpl pred proj t bufSize fuel (x :: mid ++ [z]) len =
      .ok (stablyPartitioned pred proj (x :: mid ++ [z])) := by
  have hlength : (x :: mid ++ [z]).length = mid.length + 2 := by simp
  induction fuel generalizing x z mid len with
  | zero => omega
  | succ fuel ih =>
    rw [stablePartitionBidirectionalImpl]
    by_cases htwo : len = 2
    · obtain rfl : mid = [] := List.length_eq_zero_iff.mp (by omega)
      have hswap : iterSwap ([x] ++ [z]) 0 (([x] ++ [z]).length - 1) = .ok [z, x] := rfl
      rw [if_pos htwo, hswap, List.singleton_append, stablyPartitioned_pair hx, if_pos hz]
      rfl
    by_cases hthree : len = 3
    · obtain ⟨y, rfl⟩ : ∃ y, mid = [y] := List.length_eq_one_iff.mp (by omega)
      have hread : deref (x :: [y] ++ [z]) 1 = .ok y := rfl
      have hwhole := stablyPartitioned_triple hx hz y
      rw [if_neg htwo, if_pos hthree]
      dsimp only
      rw [hread, exec_bind_ok]
      split
      next hy =>
        rw [if_pos hy] at hwhole
        exact congrArg Except.ok hwhole.symm
      next hy =>
        rw [if_neg hy] at hwhole
        exact congrArg Except.ok hwhole.symm
    rw [if_neg htwo, if_neg hthree]
    by_cases hbuf : len ≤ bufSize
    · rw [if_pos hbuf]
      exact bufferedBidirectional_spec hx hz (hlen ▸ hbuf)
    obtain ⟨a, b, hl, ha, hb, hbpos, halt, hblt⟩ :=
      exists_halves (l := x :: mid ++ [z]) rfl (by omega)
    obtain ⟨b, z', rfl⟩ := exists_concat (List.ne_nil_of_length_pos (show 0 < b.length by omega))
    obtain rfl : z = z' := by
      rw [← List.append_assoc] at hl
      exact (List.cons.inj (List.append_inj' hl rfl).2).1
    rw [List.length_append, List.length_singleton] at hb hbpos hblt
    have hmiddle := (length_trues_append_falses pred proj (x :: a)).symm
    have hend : (trues pred proj (x :: a) ++ falses pred proj (x :: a) ++ (b ++ [z])).length =
        (x :: a).length + b.length + 1 := by
      rw [List.length_append, ← hmiddle, List.length_append, List.length_singleton, Nat.add_assoc]
    have hbefore : ∀ c w f, x :: a = x :: c ++ w :: f → pred (proj w) = true →
        stablePartitionBidirectionalImpl pred proj t bufSize fuel (x :: c ++ [w])
          (x :: c ++ [w]).length = .ok (stablyPartitioned pred proj (x :: c ++ [w])) := by
      intro c w f hcut hw
      have hlenc := congrArg List.length hcut
      rw [List.length_append, List.length_cons (a := w)] at hlenc
      refine ih hx hw rfl ?_ (by simp)
      rw [List.length_append, List.length_singleton]
      omega
    have hbehind : ∀ bt y c, b ++ [z] = bt ++ y :: c → pred (proj y) = false →
        stablePartitionBidirectionalImpl pred proj t bufSize fuel (y :: c) (y :: c).length =
          .ok (stablyPartitioned pred proj (y :: c)) := by
      intro bt y c hcut hy
      have hlenc := congrArg List.length hcut
      rw [List.length_append, List.length_append, List.length_singleton] at hlenc
      obtain ⟨c', hyc⟩ := ends_behind hcut hy hz
      rw [hyc] at hlenc ⊢
      exact ih hy hz rfl (by omega) (by simp)
    have hfirst := partitionFirstHalf_spec _ (b := b ++ [z]) hx hbefore
    have hsecond := secondHalf_spec t _ (List.ne_nil_of_length_pos (by omega))
      (List.forall_mem_singleton.mpr hz) hbehind hmiddle
      rfl rfl (show b.length < (x :: a).length + b.length + 1 by omega) rfl
    have hlast : (x :: mid ++ [z]).length - 1 = (x :: a).length + b.length := by
      rw [hl, List.length_append, List.length_append, List.length_singleton]
      omega
    rw [if_neg hbuf]
    dsimp only
    rw [hlast, hlen, ← hb, ← ha, hl, hfirst, exec_bind_ok]
    dsimp only
    rw [hend, stablyPartitioned, trues_append, falses_append, List.length_append]
    exact hsecond

/-! ## The whole range -/

theorem firstFalse_skip {a b c : List α} (hb : ∀ x ∈ b, pred (proj x) = true) (fuel : Nat) :
    firstFalse pred proj (a ++ (b ++ c)) (b.length + fuel) a.length =
      firstFalse pred proj (a ++ (b ++ c)) fuel (a.length + b.length) := by
  induction b generalizing a with
  | nil => rw [List.length_nil, Nat.zero_add, Nat.add_zero]
  | cons x b ih =>
    obtain ⟨hx, hb⟩ := List.forall_mem_cons.mp hb
    have hrest := ih (a := a ++ [x]) hb
    rw [List.length_append, List.length_singleton, List.append_assoc, Nat.add_right_comm] at hrest
    rw [List.length_cons, Nat.succ_add, firstFalse, if_neg (by simp), List.cons_append,
      deref_append, exec_bind_ok, if_pos hx]
    exact hrest

theorem firstFalse_length {l : List α} (h : ∀ x ∈ l, pred (proj x) = true) :
    firstFalse pred proj l (l.length + 1) 0 = .ok l.length := by
  have hskip := firstFalse_skip (a := []) (c := []) h 1
  rw [List.append_nil, List.nil_append, List.length_nil, Nat.zero_add] at hskip
  exact hskip.trans (if_pos rfl)

theorem firstFalse_front {a b : List α} {x : α} (ha : ∀ y ∈ a, pred (proj y) = true)
    (hx : pred (proj x) = false) :
    firstFalse pred proj (a ++ x :: b) ((a ++ x :: b).length + 1) 0 = .ok a.length := by
  have hskip := firstFalse_skip (a := []) (c := x :: b) ha ((x :: b).length + 1)
  rw [List.nil_append, List.length_nil, Nat.zero_add] at hskip
  rw [List.length_append, Nat.add_assoc, hskip, firstFalse, if_neg (by simp), deref_append,
    exec_bind_ok, if_neg (by simp [hx])]

theorem lastTrue_none {a b c : List α} (x : α) (hb : ∀ y ∈ b, pred (proj y) = false) :
    lastTrue pred proj (a ++ x :: b ++ c) a.length (a.length + b.length + 1) = .ok none := by
  induction b using List.reverseRecOn generalizing c with
  | nil => exact if_pos rfl
  | append_singleton b y ih =>
    have hy := hb y (by simp)
    have hread : deref (a ++ x :: (b ++ [y]) ++ c) (a.length + b.length + 1) = .ok y := by
      have := deref_append (a ++ x :: b) y c
      simpa [Nat.add_assoc] using this
    have hrest := ih (c := y :: c) fun z hz => hb z (by simp [hz])
    have hlist : a ++ x :: (b ++ [y]) ++ c = a ++ x :: b ++ y :: c := by simp
    rw [List.length_append, List.length_singleton, ← Nat.add_assoc, lastTrue, if_neg (by omega),
      hread, exec_bind_ok, if_neg (by simp [hy]), hlist, hrest]

theorem lastTrue_some {a m b c : List α} {x z : α} (hz : pred (proj z) = true)
    (hb : ∀ y ∈ b, pred (proj y) = false) :
    lastTrue pred proj (a ++ (x :: m ++ [z]) ++ b ++ c) a.length
      (a.length + (x :: m ++ [z]).length + b.length) = .ok (some (a.length + m.length + 1)) := by
  induction b using List.reverseRecOn generalizing c with
  | nil =>
    have hread : deref (a ++ (x :: m ++ [z]) ++ [] ++ c) (a.length + m.length + 1) = .ok z := by
      have := deref_append (a ++ x :: m) z c
      simpa [Nat.add_assoc] using this
    have hpos : a.length + (x :: m ++ [z]).length + ([] : List α).length =
        a.length + m.length + 1 + 1 := by
      simp [Nat.add_assoc]
    rw [hpos, lastTrue, if_neg (by omega), hread, exec_bind_ok, if_pos hz]
  | append_singleton b y ih =>
    have hy := hb y (by simp)
    have hpos : a.length + (x :: m ++ [z]).length + b.length =
        (a ++ (x :: m ++ [z]) ++ b).length := by
      simp only [List.length_append]
    have hread : deref (a ++ (x :: m ++ [z]) ++ b ++ y :: c)
        (a.length + (x :: m ++ [z]).length + b.length) = .ok y := by
      rw [hpos]
      exact deref_append _ y c
    have hrest := ih (c := y :: c) fun z hz => hb z (by simp [hz])
    have hlist : a ++ (x :: m ++ [z]) ++ (b ++ [y]) ++ c =
        a ++ (x :: m ++ [z]) ++ b ++ y :: c := by simp
    have hlen : (b ++ [y]).length = b.length + 1 := by
      rw [List.length_append, List.length_singleton]
    rw [hlen, ← Nat.add_assoc, lastTrue,
      if_neg (by simp; omega), hlist, hread, exec_bind_ok, if_neg (by simp [hy]), hrest]

/-- Trues in front and falses behind are where they belong. -/
theorem stablyPartitioned_frame {a m b : List α} (ha : ∀ x ∈ a, pred (proj x) = true)
    (hb : ∀ x ∈ b, pred (proj x) = false) :
    stablyPartitioned pred proj (a ++ m ++ b) =
      (a ++ (stablyPartitioned pred proj m).1 ++ b,
        a.length + (stablyPartitioned pred proj m).2) := by
  simp only [stablyPartitioned, trues_append, falses_append, trues_of_all ha, falses_of_all ha,
    trues_of_none hb, falses_of_none hb, List.append_nil, List.nil_append, List.append_assoc,
    List.length_append]

theorem stablyPartitioned_of_all {l : List α} (h : ∀ x ∈ l, pred (proj x) = true) :
    stablyPartitioned pred proj l = (l, l.length) := by
  rw [stablyPartitioned, trues_of_all h, falses_of_all h, List.append_nil]

/-- The reduced range is partitioned by `run`, and what surrounds it stays. -/
theorem reduced_spec (run : List α → Exec (List α × Nat)) {a m b : List α} {last : Nat}
    (ha : ∀ x ∈ a, pred (proj x) = true) (hb : ∀ x ∈ b, pred (proj x) = false)
    (hlast : last = a.length + m.length) (hrun : run m = .ok (stablyPartitioned pred proj m)) :
    (do
      let (l, it) ← onRangeWith (a ++ m ++ b) a.length last run
      .ok (l, a.length + it)) =
    (.ok (stablyPartitioned pred proj (a ++ m ++ b)) : Exec (List α × Nat)) := by
  rw [onRangeWith_append rfl hlast hrun, exec_bind_ok, stablyPartitioned_frame ha hb]
  rfl

theorem stablePartitionForward_spec (t : RangeTraits) (getBuffer : Nat → TemporaryBuffer)
    {fuel : Nat} {l : List α} (hfuel : l.length ≤ fuel) :
    stablePartitionForward pred proj t getBuffer fuel l = .ok (stablyPartitioned pred proj l) := by
  rw [stablePartitionForward]
  obtain hall | ⟨a, x, b, rfl, ha, hx⟩ := all_or_first (fun x => pred (proj x)) l
  · dsimp only
    rw [firstFalse_length hall, exec_bind_ok, if_pos rfl, stablyPartitioned_of_all hall]
  · have hlen : (a ++ x :: b).length = a.length + (x :: b).length := List.length_append
    have hnil : ∀ y ∈ ([] : List α), pred (proj y) = false := fun y hy => absurd hy List.not_mem_nil
    have himpl (bufSize : Nat) := stablePartitionForwardImpl_spec t bufSize fuel hx
      (show (a ++ x :: b).length - a.length = (x :: b).length by omega) (by omega)
    have hreduced (bufSize : Nat) := reduced_spec
      (fun s => stablePartitionForwardImpl pred proj t bufSize fuel s
        ((a ++ x :: b).length - a.length)) ha hnil hlen (himpl bufSize)
    simp only [List.append_nil] at hreduced
    dsimp only
    rw [firstFalse_front ha hx, exec_bind_ok, if_neg (by simp)]
    exact hreduced _

theorem stablePartitionBidirectional_spec (t : RangeTraits) (getBuffer : Nat → TemporaryBuffer)
    {fuel : Nat} {l : List α} (hfuel : l.length ≤ fuel) :
    stablePartitionBidirectional pred proj t getBuffer fuel l =
      .ok (stablyPartitioned pred proj l) := by
  rw [stablePartitionBidirectional]
  obtain hall | ⟨a, x, b, rfl, ha, hx⟩ := all_or_first (fun x => pred (proj x)) l
  · dsimp only
    rw [firstFalse_length hall, exec_bind_ok, if_pos rfl, stablyPartitioned_of_all hall]
  · have hlen : (a ++ x :: b).length = a.length + b.length + 1 := by
      rw [List.length_append, List.length_cons, Nat.add_assoc]
    dsimp only
    rw [firstFalse_front ha hx, exec_bind_ok, if_neg (by simp)]
    obtain hnone | ⟨m, z, f, rfl, hz, hf⟩ := none_or_last (fun x => pred (proj x)) b
    · have hlast := lastTrue_none (a := a) (c := []) x hnone
      have hnone' : ∀ y ∈ x :: b, pred (proj y) = false := List.forall_mem_cons.mpr ⟨hx, hnone⟩
      rw [List.append_nil] at hlast
      rw [hlen, hlast, exec_bind_ok, stablyPartitioned, trues_append, falses_append,
        trues_of_all ha, falses_of_all ha, trues_of_none hnone', falses_of_none hnone',
        List.append_nil, List.nil_append]
    · have hlist : a ++ x :: (m ++ z :: f) = a ++ (x :: m ++ [z]) ++ f := by simp
      have hlast := lastTrue_some (a := a) (m := m) (c := []) (x := x) hz hf
      have hend : (a ++ (x :: m ++ [z]) ++ f).length =
          a.length + (x :: m ++ [z]).length + f.length := by
        rw [List.length_append, List.length_append]
      have hstop : a.length + m.length + 1 + 1 = a.length + (x :: m ++ [z]).length := by
        rw [List.length_append, List.length_cons, List.length_singleton]
        omega
      have himpl (bufSize : Nat) := stablePartitionBidirectionalImpl_spec t bufSize fuel hx hz
        (show a.length + m.length + 1 - a.length + 1 = (x :: m ++ [z]).length by omega)
        (by rw [hlist, hend] at hfuel; omega)
      rw [List.append_nil] at hlast
      rw [hlist, hend, hlast, exec_bind_ok]
      exact reduced_spec _ ha hf hstop (himpl _)

/-- Whatever the capacity of the buffer, both implementations put the trues in front of the
falses, each in their order, and return the boundary. -/
theorem stablePartition_correct (pred : κ → Bool) (proj : α → κ) (t : RangeTraits)
    (getBuffer : Nat → TemporaryBuffer) (l : List α) :
    Returns (fun fuel => stablePartitionForward pred proj t getBuffer fuel l)
      (stablyPartitioned pred proj l) ∧
    Returns (fun fuel => stablePartitionBidirectional pred proj t getBuffer fuel l)
      (stablyPartitioned pred proj l) ∧
    Returns (fun fuel => stablePartition pred proj t getBuffer fuel l)
      (stablyPartitioned pred proj l) := by
  refine ⟨⟨l.length, ?_⟩, ⟨l.length, ?_⟩, ⟨l.length, ?_⟩⟩
  · exact fun fuel hfuel => stablePartitionForward_spec t getBuffer hfuel
  · exact fun fuel hfuel => stablePartitionBidirectional_spec t getBuffer hfuel
  · intro fuel hfuel
    unfold stablePartition
    cases t.tag with
    | forward => exact stablePartitionForward_spec t getBuffer hfuel
    | bidirectional => exact stablePartitionBidirectional_spec t getBuffer hfuel
    | randomAccess => exact stablePartitionBidirectional_spec t getBuffer hfuel

end EARanges.Algorithm
