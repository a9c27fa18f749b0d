import EARanges.Iterator.RangeTraits
import EARanges.Support.InPlace
import EARanges.Support.Numbered

/-!
# A base range of any category

What a view asks of the range it is given: `begin`, `size`, `distance`, and the unbounded
`next(it, n)`. A single-pass range has one iterator, copies of which are left behind when it
moves, and may know its size only until `begin` has been called. The language leaves open in
which order the arguments of a call are evaluated.
-/
namespace EARanges.Iterator
open EARanges.Support

inductive ArgOrder where
  | leftFirst | rightFirst
  deriving DecidableEq, Repr

/-- `sizeFirst` says of a single-pass range that `size()` must not be called after `begin()`. -/
structure BaseRange (α : Type) where
  list : List α
  traits : RangeTraits
  borrowed : Bool
  sizeFirst : Bool

/-- An iterator, and where the one iterator of a single-pass range stands. -/
structure Position where
  it : Nat
  pass : Option Nat
  deriving DecidableEq, Repr

namespace BaseRange

variable {α : Type}

def length (b : BaseRange α) : Nat := b.list.length

/-- A single-pass range has no second begin. -/
def beginIt (b : BaseRange α) (pass : Option Nat) : Exec Position :=
  if b.traits.forward then .ok ⟨0, pass⟩
  else
    match pass with
    | none => .ok ⟨0, some 0⟩
    | some _ => .error .fault

def isCurrent (b : BaseRange α) (p : Position) : Bool := b.traits.forward || p.pass == some p.it

def derefIt (b : BaseRange α) (p : Position) : Exec α :=
  if b.isCurrent p then deref b.list p.it else .error .fault

def incrIt (b : BaseRange α) (p : Position) : Exec Position :=
  if b.isCurrent p then do
    let it ← incrTo b.length p.it
    .ok ⟨it, if b.traits.forward then p.pass else some it⟩
  else .error .fault

/-- `advance(it, n)`, which expects `0 <= n` of an iterator that is not bidirectional. -/
def advanceIt (b : BaseRange α) (p : Position) (n : Int) : Exec Position :=
  if b.traits.bidirectional then do
    let it ← advanceBy b.traits b.length p.it n
    .ok ⟨it, p.pass⟩
  else if n < 0 then .error .fault
  else Traversal.stepMany b.incrIt n.toNat p

def size (b : BaseRange α) (pass : Option Nat) : Exec Nat :=
  if b.sizeFirst && !b.traits.forward && pass.isSome then .error .fault else .ok b.length

/-- `for(; first != last; ++first) ++d;`. -/
def enumerateLoop (length : Nat) : Nat → Nat → Int → Exec Int
  | 0, _, _ => .error .fuel
  | fuel + 1, it, d =>
    if it = length then .ok d
    else do
      let it ← incrTo length it
      enumerateLoop length fuel it (d + 1)

/-- `enumerate(rng).first` of a multi-pass range. -/
def enumerate (b : BaseRange α) : Exec Int :=
  if b.traits.sizedSentinel then .ok b.length
  else if b.traits.sizedIterator then do
    let last ← advanceToEnd b.traits b.length 0
    .ok last
  else enumerateLoop b.length (b.length + 1) 0 0

/-- `distance(rng)`, asked of sized and of multi-pass ranges only. -/
def distance (b : BaseRange α) (pass : Option Nat) : Exec Int :=
  if b.traits.sized then do
    let n ← b.size pass
    .ok n
  else b.enumerate

/-- The position `k` elements behind the begin. -/
def positionAt (b : BaseRange α) (k : Nat) : Position :=
  ⟨k, if b.traits.forward then none else some k⟩

theorem forward_of_bidirectional {t : RangeTraits} (h : t.bidirectional = true) :
    t.forward = true := by
  unfold RangeTraits.bidirectional at h
  unfold RangeTraits.forward
  cases hcategory : t.category <;> simp_all

theorem bidirectional_of_not_forward {t : RangeTraits} (h : t.forward = false) :
    t.bidirectional = false := by
  apply Bool.eq_false_of_not_eq_true
  intro hbidi
  rw [forward_of_bidirectional hbidi] at h
  cases h

variable (b : BaseRange α)

theorem positionAt_it (k : Nat) : (b.positionAt k).it = k := rfl

theorem positionAt_pass (h : b.traits.forward = true) (k : Nat) : (b.positionAt k).pass = none :=
  if_pos h

theorem isCurrent_positionAt (k : Nat) : b.isCurrent (b.positionAt k) = true := by
  unfold isCurrent positionAt
  cases b.traits.forward with
  | true => rfl
  | false => simp

theorem beginIt_eq : b.beginIt none = .ok (b.positionAt 0) := by
  unfold beginIt positionAt
  split <;> rfl

theorem derefIt_eq {k : Nat} {x : α} (hx : b.list[k]? = some x) :
    b.derefIt (b.positionAt k) = .ok x := by
  rw [derefIt, isCurrent_positionAt, if_pos rfl]
  exact deref_of_some hx

theorem incrIt_eq {k : Nat} (hk : k < b.length) :
    b.incrIt (b.positionAt k) = .ok (b.positionAt (k + 1)) := by
  have hincr : incrTo b.length (b.positionAt k).it = .ok (k + 1) := incrTo_ok hk
  rw [incrIt, isCurrent_positionAt, if_pos rfl, hincr, exec_bind_ok]
  unfold positionAt
  split <;> rfl

/-- `next(it, n)` goes where it should, back only if the iterator is bidirectional. -/
theorem advanceIt_eq {k m : Nat} {n : Int} (hn : (k : Int) + n = m) (hk : k ≤ b.length)
    (hm : m ≤ b.length) (hback : b.traits.bidirectional = true ∨ 0 ≤ n) :
    b.advanceIt (b.positionAt k) n = .ok (b.positionAt m) := by
  unfold advanceIt
  split
  · next hbidi =>
    have hforward := forward_of_bidirectional hbidi
    rw [positionAt_it, advanceBy_eq b.traits hk hm hn, exec_bind_ok, positionAt_pass b hforward,
      positionAt, if_pos hforward]
  · next hbidi =>
    have hpos : 0 ≤ n := hback.resolve_left hbidi
    have hsteps : ∀ i p, p = b.positionAt i → i < b.length →
        ∃ p', b.incrIt p = .ok p' ∧ p' = b.positionAt (i + 1) :=
      fun i p hp hi => ⟨_, hp ▸ b.incrIt_eq hi, rfl⟩
    obtain ⟨p, hrun, hp⟩ := Loop.stepMany_forward hsteps (i := k) (k := n.toNat) rfl (by omega)
    rw [if_neg (by omega), hrun, hp]
    congr 2
    omega

theorem enumerateLoop_eq {length fuel it : Nat} (hit : it ≤ length) (hfuel : length - it < fuel)
    (d : Int) : enumerateLoop length fuel it d = .ok (d + (length - it)) := by
  induction fuel generalizing it d with
  | zero => omega
  | succ fuel ih =>
    rw [enumerateLoop]
    by_cases hend : it = length
    · rw [if_pos hend, hend]
      simp
    · rw [if_neg hend, incrTo_ok (by omega), exec_bind_ok, ih (by omega) (by omega)]
      congr 1
      omega

theorem enumerate_eq : b.enumerate = .ok b.length := by
  unfold enumerate
  split
  · rfl
  · split
    · rw [advanceToEnd_eq b.traits (Nat.zero_le _), exec_bind_ok]
    · rw [enumerateLoop_eq (Nat.zero_le _) (by omega)]
      congr 1
      omega

theorem distance_eq {pass : Option Nat}
    (h : b.traits.forward = true ∨ b.sizeFirst = false ∨ pass = none) :
    b.distance pass = .ok b.length := by
  unfold distance
  split
  · have hsize : (b.sizeFirst && !b.traits.forward && pass.isSome) = false := by
      obtain h | h | h := h
      · rw [h, Bool.not_true, Bool.and_false, Bool.false_and]
      · rw [h, Bool.false_and, Bool.false_and]
      · rw [h, Option.isSome_none, Bool.and_false]
    rw [size, hsize, if_neg Bool.false_ne_true, exec_bind_ok]
  · exact b.enumerate_eq

end BaseRange

end EARanges.Iterator
