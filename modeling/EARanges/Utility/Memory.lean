import Mathlib.Data.List.Basic

/-!
# Temporary buffers

utility/memory.hpp, `get_temporary_buffer`. The nothrow `operator new` is a predicate on
the number of bytes asked for. A buffer is its pointer, of which only whether it is null
matters, and the capacity reported with it. The increment `n /= 2` of the loop also runs
after the attempt that succeeds, so the capacity reported is half of what was allocated.
-/
namespace EARanges.Utility

/-- `eastl::pair<T *, std::ptrdiff_t>`, the pointer as `ptr != nullptr`. -/
structure TemporaryBuffer where
  first : Bool
  second : Nat
  deriving DecidableEq, Repr

/-- No buffer, or one with room for an element. -/
def TemporaryBuffer.Usable (buf : TemporaryBuffer) : Prop := buf.first = true → 0 < buf.second

/-- `PTRDIFF_MAX`. -/
def ptrdiffMax : Nat := 0x7fffffffffffffff

/-- `for(; ptr == nullptr && n > 0; n /= 2) ptr = ::operator new(sizeof(T) * n)`. -/
def temporaryBufferLoop (alloc : Nat → Bool) (sizeofT : Nat) (ptr : Bool) (n : Nat) :
    TemporaryBuffer :=
  if ptr = false ∧ 0 < n then
    temporaryBufferLoop alloc sizeofT (alloc (sizeofT * n)) (n / 2)
  else ⟨ptr, n⟩
termination_by n
decreasing_by omega

def getTemporaryBufferImpl (alloc : Nat → Bool) (sizeofT n : Nat) : TemporaryBuffer :=
  let n := if n > ptrdiffMax / sizeofT then ptrdiffMax / sizeofT else n
  temporaryBufferLoop alloc sizeofT false n

def getTemporaryBuffer (alloc : Nat → Bool) (sizeofT count : Nat) : TemporaryBuffer :=
  getTemporaryBufferImpl alloc sizeofT count

/-- The sizes tried, in elements: `n`, `n / 2`, ..., `1`. -/
def requests (n : Nat) : List Nat :=
  if n = 0 then [] else n :: requests (n / 2)
termination_by n
decreasing_by omega

/-- The first size the allocator accepts. -/
def accepted (alloc : Nat → Bool) (sizeofT count : Nat) : Option Nat :=
  (requests (min count (ptrdiffMax / sizeofT))).find? fun n => alloc (sizeofT * n)

theorem pos_of_mem_requests {n m : Nat} (h : m ∈ requests n) : 0 < m := by
  induction n using Nat.strongRecOn with
  | _ n ih =>
    rw [requests] at h
    split at h
    next => cases h
    next hn =>
      obtain rfl | h := List.mem_cons.mp h
      · omega
      · exact ih (n / 2) (by omega) h

theorem accepted_pos {alloc : Nat → Bool} {sizeofT count n : Nat}
    (h : accepted alloc sizeofT count = some n) : 0 < n :=
  pos_of_mem_requests (List.mem_of_find?_eq_some h)

theorem temporaryBufferLoop_eq (alloc : Nat → Bool) (sizeofT n : Nat) :
    temporaryBufferLoop alloc sizeofT false n =
      match (requests n).find? fun n => alloc (sizeofT * n) with
      | none => ⟨false, 0⟩
      | some m => ⟨true, m / 2⟩ := by
  induction n using Nat.strongRecOn with
  | _ n ih =>
    rw [temporaryBufferLoop, requests]
    by_cases hn : n = 0
    · simp [hn]
    · rw [if_pos ⟨rfl, Nat.pos_of_ne_zero hn⟩, if_neg hn, List.find?_cons]
      cases halloc : alloc (sizeofT * n) with
      | false => exact ih (n / 2) (by omega)
      | true =>
        rw [temporaryBufferLoop]
        simp

/-- The pointer is null exactly if every size is refused, and the capacity reported is
half the size accepted. -/
theorem getTemporaryBuffer_eq (alloc : Nat → Bool) (sizeofT count : Nat) :
    getTemporaryBuffer alloc sizeofT count =
      match accepted alloc sizeofT count with
      | none => ⟨false, 0⟩
      | some m => ⟨true, m / 2⟩ := by
  have hclamp : (if count > ptrdiffMax / sizeofT then ptrdiffMax / sizeofT else count) =
      min count (ptrdiffMax / sizeofT) := by
    split <;> omega
  rw [getTemporaryBuffer, getTemporaryBufferImpl, accepted, hclamp]
  exact temporaryBufferLoop_eq alloc sizeofT _

/-- The buffer is not usable exactly if only the last request, for one element, was
accepted. -/
theorem getTemporaryBuffer_usable_iff (alloc : Nat → Bool) (sizeofT count : Nat) :
    (getTemporaryBuffer alloc sizeofT count).Usable ↔ accepted alloc sizeofT count ≠ some 1 := by
  rw [getTemporaryBuffer_eq, TemporaryBuffer.Usable]
  cases hacc : accepted alloc sizeofT count with
  | none => simp
  | some m =>
    have := accepted_pos hacc
    simp only [true_implies, ne_eq, Option.some.injEq]
    omega

theorem getTemporaryBuffer_of_accepted_one {alloc : Nat → Bool} {sizeofT count : Nat}
    (h : accepted alloc sizeofT count = some 1) :
    getTemporaryBuffer alloc sizeofT count = ⟨true, 0⟩ := by
  rw [getTemporaryBuffer_eq, h]

/-! ## What a temporary buffer promises -/

/-- A null pointer exactly if every size tried is refused, and otherwise the capacity of
the first size accepted: a request accepted at once is reported in full. -/
structure TemporaryBuffer.Meets (buf : TemporaryBuffer) (alloc : Nat → Bool)
    (sizeofT count : Nat) : Prop where
  null : buf.first = false ↔
    ∀ n ∈ requests (min count (ptrdiffMax / sizeofT)), alloc (sizeofT * n) = false
  capacity : ∀ n, accepted alloc sizeofT count = some n → buf.second = n
  full : 0 < count → count ≤ ptrdiffMax / sizeofT → alloc (sizeofT * count) = true →
    buf.second = count

theorem accepted_eq_none {alloc : Nat → Bool} {sizeofT count : Nat} :
    accepted alloc sizeofT count = none ↔
      ∀ n ∈ requests (min count (ptrdiffMax / sizeofT)), alloc (sizeofT * n) = false := by
  simp [accepted, List.find?_eq_none]

/-- The whole request is the first size tried. -/
theorem accepted_of_full {alloc : Nat → Bool} {sizeofT count : Nat} (hpos : 0 < count)
    (hfits : count ≤ ptrdiffMax / sizeofT) (hfull : alloc (sizeofT * count) = true) :
    accepted alloc sizeofT count = some count := by
  rw [accepted, Nat.min_eq_left hfits, requests, if_neg (Nat.ne_of_gt hpos), List.find?_cons,
    hfull]

/-- The promise is kept exactly if the allocator refuses every size. -/
theorem getTemporaryBuffer_meets_iff (alloc : Nat → Bool) (sizeofT count : Nat) :
    (getTemporaryBuffer alloc sizeofT count).Meets alloc sizeofT count ↔
      ∀ n ∈ requests (min count (ptrdiffMax / sizeofT)), alloc (sizeofT * n) = false := by
  rw [← accepted_eq_none]
  constructor
  · intro hmeets
    cases hacc : accepted alloc sizeofT count with
    | none => rfl
    | some m =>
      -- the capacity reported is `m / 2`
      have hcapacity := hmeets.capacity m hacc
      rw [getTemporaryBuffer_eq, hacc] at hcapacity
      have hpos := accepted_pos hacc
      simp only at hcapacity
      omega
  · intro hnone
    have hbuf : getTemporaryBuffer alloc sizeofT count = ⟨false, 0⟩ := by
      rw [getTemporaryBuffer_eq, hnone]
    constructor
    · rw [hbuf, ← accepted_eq_none]
      simp [hnone]
    · intro n haccepted
      rw [hnone] at haccepted
      cases haccepted
    · intro hpos hfits hfull
      rw [accepted_of_full hpos hfits hfull] at hnone
      cases hnone

/-- Eight elements of one byte from an allocator that refuses nothing: four are
reported. -/
theorem getTemporaryBuffer_eight :
    ¬ (getTemporaryBuffer (fun _ => true) 1 8).Meets (fun _ => true) 1 8 := by
  intro hmeets
  have hfull := hmeets.full (by decide) (by decide) rfl
  rw [getTemporaryBuffer_eq, accepted_of_full (by decide) (by decide) rfl] at hfull
  exact absurd hfull (by decide)

end EARanges.Utility
