import EARanges.Iterator.BaseRange

/-!
# `slice_view` and `drop_exactly_view`

view/slice.hpp and view/drop_exactly.hpp. A bound is an offset from the begin, or `end - n`,
which holds `-n`. `pos_at_` turns a negative offset into a position in a way that depends on
the category, and on whether the base is common and sized; the overloads of `slice` differ in
how they get at the count.
-/
namespace EARanges.View
open EARanges.Support EARanges.Iterator

/-- `end - n`. -/
structure FromEnd where
  dist : Int
  dist_le : dist ≤ 0

def endMinus (n : Nat) : FromEnd := ⟨-n, by omega⟩

theorem endMinus_dist (n : Nat) : (endMinus n).dist = -n := rfl

/-- What a call of `slice` returns: a `slice_view`, a `subrange` of two iterators, a
`drop_exactly_view`, or a `subrange` up to the end of the base. -/
inductive Sliced where
  | sliceView (from_ count : Int)
  | subrange (first last : Nat)
  | dropExactlyView (n : Int)
  | subrangeToEnd (first : Nat)
  deriving DecidableEq, Repr

/-- The base in a view, and `begin_`, which is filled on first use. -/
structure SlicedState where
  pass : Option Nat
  begin_ : Option Nat
  deriving DecidableEq, Repr

/-- A `counted_iterator` ends when its count is zero, an iterator at a position. -/
inductive SlicedEnd where
  | count (n : Int)
  | at (last : Nat)
  deriving DecidableEq, Repr

structure SlicedCursor where
  pos : Position
  stop : SlicedEnd
  deriving DecidableEq, Repr

section
variable {α : Type} (order : ArgOrder) (b : BaseRange α)

/-- `next(ranges::begin(rng), distance(rng) + i)`. -/
def nextDistance (pass : Option Nat) (i : Int) : Exec Position :=
  match order with
  | .leftFirst => do
    let p ← b.beginIt pass
    let d ← b.distance p.pass
    b.advanceIt p (d + i)
  | .rightFirst => do
    let d ← b.distance pass
    let p ← b.beginIt pass
    b.advanceIt p (d + i)

/-- `next(ranges::begin(rng), i)`. -/
def nextBegin (pass : Option Nat) (i : Int) : Exec Position := do
  let p ← b.beginIt pass
  b.advanceIt p i

/-- `next(ranges::next(ranges::begin(rng), ranges::end(rng)), i)`. -/
def nextFromEnd (pass : Option Nat) (i : Int) : Exec Position := do
  let p ← b.beginIt pass
  let last ← advanceToEnd b.traits b.length p.it
  b.advanceIt ⟨last, p.pass⟩ i

/-- `pos_at_` of a finite range. -/
def posAt (pass : Option Nat) (i : Int) : Exec Position :=
  if b.traits.bidirectional then
    if i < 0 then
      if b.traits.sized && !b.traits.common then nextDistance order b pass i
      else nextFromEnd b pass i
    else nextBegin b pass i
  else if ¬ (0 ≤ i ∨ b.traits.sized = true ∨ b.traits.forward = true) then .error .fault
  else if i < 0 then nextDistance order b pass i
  else nextBegin b pass i

/-! ## The overloads -/

namespace SliceBaseFn

/-- `impl_`; `common` is the tag that the call passes. -/
def impl (from_ count : Int) (common : Bool) : Exec Sliced :=
  if b.borrowed && b.traits.randomAccess && common then do
    let p ← posAt order b none from_
    let last ← jump count b.length p.it
    .ok (.subrange p.it last)
  else if b.traits.randomAccess && decide (count < 0) then .error .fault
  else .ok (.sliceView from_ count)

/-- `drop_exactly`. -/
def dropExactly (n : Int) : Exec Sliced :=
  if b.borrowed && b.traits.randomAccess then do
    let first ← jump n b.length 0
    .ok (.subrangeToEnd first)
  else if n < 0 then .error .fault
  else .ok (.dropExactlyView n)

/-- `slice(rng, 2, 4)`. -/
def between (first last : Int) : Exec Sliced :=
  if ¬ (0 ≤ first ∧ first ≤ last) then .error .fault
  else impl order b first (last - first) true

/-- `slice(rng, 4, end-2)`. -/
def toFromEnd (first : Int) (last : FromEnd) : Exec Sliced :=
  if ¬ 0 ≤ first then .error .fault
  else do
    let d ← b.distance none
    if ¬ first ≤ d + last.dist then .error .fault
    else
      let d ← b.distance none
      impl order b first (d + last.dist - first) true

/-- `slice(rng, end-4, end-2)`. -/
def betweenFromEnd (first last : FromEnd) : Exec Sliced :=
  if ¬ first.dist ≤ last.dist then .error .fault
  else impl order b first.dist (last.dist - first.dist) b.traits.common

/-- `slice(rng, 4, end)`. -/
def toEnd (first : Int) : Exec Sliced :=
  if ¬ 0 ≤ first then .error .fault else dropExactly b first

/-- `slice(rng, end-4, end)`. -/
def fromEndToEnd (first : FromEnd) : Exec Sliced :=
  impl order b first.dist (-first.dist) b.traits.common

end SliceBaseFn

/-! ## What is returned -/

namespace Sliced

/-- `get_begin_` of a view that is not random access. -/
def getBegin (s : SlicedState) (compute : Option Nat → Exec Position) :
    Exec (Position × SlicedState) :=
  match s.begin_ with
  | some it => .ok (⟨it, s.pass⟩, s)
  | none => do
    let p ← compute s.pass
    .ok (p, ⟨p.pass, some p.it⟩)

def beginCursor (v : Sliced) (s : SlicedState) : Exec (SlicedCursor × SlicedState) :=
  match v with
  | .sliceView from_ count =>
    if b.traits.randomAccess then do
      let p ← posAt order b s.pass from_
      let q ← posAt order b s.pass from_
      let last ← jump count b.length q.it
      .ok (⟨p, .at last⟩, s)
    else do
      let (p, s) ← getBegin s fun pass => posAt order b pass from_
      if count < 0 then .error .fault else .ok (⟨p, .count count⟩, s)
  | .subrange first last => .ok (⟨⟨first, s.pass⟩, .at last⟩, s)
  | .dropExactlyView n =>
    if b.traits.randomAccess then do
      let p ← nextBegin b s.pass n
      .ok (⟨p, .at b.length⟩, s)
    else do
      let (p, s) ← getBegin s fun pass => nextBegin b pass n
      .ok (⟨p, .at b.length⟩, s)
  | .subrangeToEnd first => .ok (⟨⟨first, s.pass⟩, .at b.length⟩, s)

def atEnd (c : SlicedCursor) : Bool :=
  match c.stop with
  | .count n => n == 0
  | .at last => c.pos.it == last

def read (c : SlicedCursor) : Exec α :=
  match c.stop with
  | .count n => if 0 < n then b.derefIt c.pos else .error .fault
  | .at _ => b.derefIt c.pos

def next (c : SlicedCursor) : Exec SlicedCursor :=
  match c.stop with
  | .count n =>
    if 0 < n then do
      let p ← b.incrIt c.pos
      .ok ⟨p, .count (n - 1)⟩
    else .error .fault
  | .at last => do
    let p ← b.incrIt c.pos
    .ok ⟨p, .at last⟩

/-- `size()`, of those that have it. -/
def size (v : Sliced) (pass : Option Nat) : Exec (Option Int) :=
  match v with
  | .sliceView _ count => .ok (some count)
  | .subrange first last => .ok (some ((last : Int) - first))
  | .dropExactlyView n =>
    if b.traits.sized then do
      let total ← b.size pass
      .ok (some (total - n))
    else .ok none
  | .subrangeToEnd first =>
    if b.traits.sizedSentinel then .ok (some ((b.length : Int) - first)) else .ok none

def loop (v : Sliced) (s : SlicedState) : Loop SlicedCursor α where
  start := do
    let (c, _) ← beginCursor order b v s
    .ok c
  atEnd c := .ok (atEnd c)
  read := read b
  next := next b

/-- Before the first `begin`, and for a multi-pass base behind any calls of it. -/
inductive Opened (v : Sliced) : SlicedState → Prop
  | fresh : Opened v ⟨none, none⟩
  | again {s s' : SlicedState} {c : SlicedCursor} : b.traits.forward = true → Opened v s →
      beginCursor order b v s = .ok (c, s') → Opened v s'

end Sliced

/-- The base is asked for its size only after its one iterator has been handed out. -/
def SizedLate : Prop :=
  order = .leftFirst ∧ b.traits.forward = false ∧ b.traits.sized = true ∧ b.sizeFirst = true

instance : Decidable (SizedLate order b) := inferInstanceAs (Decidable (_ ∧ _))

variable {order : ArgOrder} {b : BaseRange α}

/-! ## Positions -/

theorem nextBegin_eq {k : Nat} (hk : k ≤ b.length) :
    nextBegin b none k = .ok (b.positionAt k) := by
  rw [nextBegin, b.beginIt_eq, exec_bind_ok]
  exact b.advanceIt_eq (by omega) (Nat.zero_le _) hk (.inr (Int.natCast_nonneg k))

theorem nextDistance_eq {i : Int} {k : Nat} (hi : (b.length : Int) + i = k) (hk : k ≤ b.length)
    (hsize : b.traits.forward = true ∨ b.sizeFirst = false ∨ order = .rightFirst) :
    nextDistance order b none i = .ok (b.positionAt k) := by
  have hadvance : b.advanceIt (b.positionAt 0) (b.length + i) = .ok (b.positionAt k) :=
    b.advanceIt_eq (by omega) (Nat.zero_le _) hk (.inr (by omega))
  cases order with
  | leftFirst =>
    have hknown : b.traits.forward = true ∨ b.sizeFirst = false ∨ (b.positionAt 0).pass = none := by
      obtain h | h | h := hsize
      · exact .inl h
      · exact .inr (.inl h)
      · cases h
    rw [nextDistance, b.beginIt_eq, exec_bind_ok, b.distance_eq hknown, exec_bind_ok, hadvance]
  | rightFirst =>
    rw [nextDistance, b.distance_eq (.inr (.inr rfl)), exec_bind_ok, b.beginIt_eq, exec_bind_ok,
      hadvance]

theorem nextFromEnd_eq {i : Int} {k : Nat} (hbidi : b.traits.bidirectional = true)
    (hi : (b.length : Int) + i = k) (hk : k ≤ b.length) :
    nextFromEnd b none i = .ok (b.positionAt k) := by
  have hforward := BaseRange.forward_of_bidirectional hbidi
  have hlast : (⟨b.length, (b.positionAt 0).pass⟩ : Position) = b.positionAt b.length := by
    rw [b.positionAt_pass hforward, ← b.positionAt_pass hforward b.length]
    rfl
  rw [nextFromEnd, b.beginIt_eq, exec_bind_ok, b.positionAt_it,
    advanceToEnd_eq b.traits (Nat.zero_le _), exec_bind_ok, hlast]
  exact b.advanceIt_eq hi (Nat.le_refl _) hk (.inl hbidi)

theorem posAt_front {k : Nat} (hk : k ≤ b.length) :
    posAt order b none k = .ok (b.positionAt k) := by
  have hpos : ¬ (k : Int) < 0 := by omega
  rw [posAt, if_neg hpos, nextBegin_eq hk, if_neg hpos,
    if_neg (not_not.mpr (.inl (Int.natCast_nonneg k)))]
  split <;> rfl

/-- A negative offset counts from the end, in each way of counting. -/
theorem posAt_back {i : Int} {k : Nat} (hneg : i < 0) (hi : (b.length : Int) + i = k)
    (hbase : b.traits.forward = true ∨ b.traits.sized = true) (hsize : ¬ SizedLate order b) :
    posAt order b none i = .ok (b.positionAt k) := by
  have hk : k ≤ b.length := by omega
  have hknown : b.traits.forward = true ∨ b.sizeFirst = false ∨ order = .rightFirst := by
    by_contra hno
    simp only [not_or, Bool.not_eq_true, Bool.not_eq_false] at hno
    obtain ⟨hforward, hfirst, horder⟩ := hno
    refine hsize ⟨?_, hforward, hbase.resolve_left (by rw [hforward]; exact Bool.false_ne_true),
      hfirst⟩
    cases order with
    | leftFirst => rfl
    | rightFirst => exact absurd rfl horder
  have hexpect : ¬ ¬ (0 ≤ i ∨ b.traits.sized = true ∨ b.traits.forward = true) :=
    not_not.mpr (.inr hbase.symm)
  have hfront := nextDistance_eq hi hk hknown
  rw [posAt, if_pos hneg, if_neg hexpect, if_pos hneg, hfront]
  split
  · next hbidi =>
    rw [nextFromEnd_eq hbidi hi hk]
    split <;> rfl
  · rfl

/-- Asked for after the begin, the size is not there. -/
theorem posAt_late {i : Int} (hneg : i < 0) (hlate : SizedLate order b) :
    posAt order b none i = .error .fault := by
  obtain ⟨rfl, hforward, hsized, hfirst⟩ := hlate
  have hbidi := BaseRange.bidirectional_of_not_forward hforward
  have hbegin : b.beginIt none = .ok ⟨0, some 0⟩ := by
    rw [BaseRange.beginIt, hforward, if_neg Bool.false_ne_true]
  have hdistance : b.distance (some 0) = .error .fault := by
    rw [BaseRange.distance, if_pos hsized, BaseRange.size, hfirst, hforward]
    rfl
  rw [posAt, hbidi, if_neg Bool.false_ne_true, if_neg (not_not.mpr (.inr (.inl hsized))),
    if_pos hneg, nextDistance, hbegin, exec_bind_ok, hdistance, exec_bind_error]

/-! ## Reading -/

namespace Sliced

/-- A loop that begins at `k` and ends after `n` elements, by either test. -/
theorem loop_delivers {v : Sliced} {s s' : SlicedState} {k n : Nat} {stop : SlicedEnd}
    (hbegin : beginCursor order b v s = .ok (⟨b.positionAt k, stop⟩, s'))
    (hstop : stop = .count n ∨ stop = .at (k + n)) (hle : k + n ≤ b.length) :
    (loop order b v s).Delivers ((b.list.drop k).take n) := by
  have hlen : ((b.list.drop k).take n).length = n := by
    rw [List.length_take, List.length_drop]
    unfold BaseRange.length at hle
    omega
  have hnumbers : Loop.Numbers (loop order b v s) ((b.list.drop k).take n) fun i c =>
      c.pos = b.positionAt (k + i) ∧ (c.stop = .count ((n : Int) - i) ∨ c.stop = .at (k + n)) := by
    refine ⟨⟨⟨⟨b.positionAt k, stop⟩, ?_, ?_⟩, fun i c hat hi => ?_⟩, fun i c hat => ?_,
      fun i c x hat hx => ?_⟩
    · exact congrArg (fun run : Exec (SlicedCursor × SlicedState) => run >>= fun p => .ok p.1)
        hbegin
    · refine ⟨rfl, hstop.imp_left fun heq => ?_⟩
      rw [heq, Int.natCast_zero, Int.sub_zero]
    · rw [hlen] at hi
      obtain ⟨hpos, hcount | hlast⟩ := hat
      · refine ⟨⟨b.positionAt (k + i + 1), .count ((n : Int) - i - 1)⟩, ?_, rfl, .inl ?_⟩
        · simp only [loop, next, hcount]
          rw [if_pos (by omega), hpos, b.incrIt_eq (by omega), exec_bind_ok]
        · dsimp only
          congr 1
          omega
      · refine ⟨⟨b.positionAt (k + i + 1), .at (k + n)⟩, ?_, rfl, .inr rfl⟩
        simp only [loop, next, hlast]
        rw [hpos, b.incrIt_eq (by omega), exec_bind_ok]
    · rw [hlen]
      obtain ⟨hpos, hcount | hlast⟩ := hat
      · simp only [loop, atEnd, hcount]
        congr 1
        rw [Bool.eq_iff_iff, beq_iff_eq, decide_eq_true_iff]
        omega
      · simp only [loop, atEnd, hlast, hpos, b.positionAt_it]
        congr 1
        rw [Bool.eq_iff_iff, beq_iff_eq, decide_eq_true_iff]
        omega
    · have hi : i < n := by
        have hlt := (List.getElem?_eq_some_iff.mp hx).1
        rwa [hlen] at hlt
      have hget : b.list[k + i]? = some x := by
        rwa [List.getElem?_take, if_pos hi, List.getElem?_drop] at hx
      have hread := b.derefIt_eq hget
      obtain ⟨hpos, hcount | hlast⟩ := hat
      · simp only [loop, read, hcount]
        rw [if_pos (by omega), hpos, hread]
      · simp only [loop, read, hlast]
        rw [hpos, hread]
  exact hnumbers.delivers

/-- `v` stands for the `n` elements from `k` on. -/
inductive Stands (order : ArgOrder) (b : BaseRange α) : Sliced → Nat → Nat → Prop
  | sliceView {from_ : Int} {k n : Nat} : posAt order b none from_ = .ok (b.positionAt k) →
      k + n ≤ b.length → Stands order b (.sliceView from_ n) k n
  | subrange {k n : Nat} : b.traits.forward = true → k + n ≤ b.length →
      Stands order b (.subrange k (k + n)) k n
  | dropExactlyView {k n : Nat} : k + n = b.length → Stands order b (.dropExactlyView k) k n
  | subrangeToEnd {k n : Nat} : b.traits.forward = true → k + n = b.length →
      Stands order b (.subrangeToEnd k) k n

/-- The base is as it was, and a begin that has been filled is the right one. -/
structure StateOk (b : BaseRange α) (k : Nat) (s : SlicedState) : Prop where
  pass : s.pass = none
  begin_ : s.begin_ = none ∨ (b.traits.forward = true ∧ s.begin_ = some k)

theorem getBegin_eq (compute : Option Nat → Exec Position) {k : Nat} {s : SlicedState}
    (hs : StateOk b k s) (hcompute : compute none = .ok (b.positionAt k)) :
    ∃ s', getBegin s compute = .ok (b.positionAt k, s') ∧
      (b.traits.forward = true → StateOk b k s') := by
  obtain ⟨pass, begin_⟩ := s
  obtain ⟨hpass, hbegin⟩ := hs
  dsimp only at hpass hbegin
  subst hpass
  obtain rfl | ⟨hforward, rfl⟩ := hbegin
  · refine ⟨⟨(b.positionAt k).pass, some k⟩, ?_, fun hforward => ⟨?_, .inr ⟨hforward, rfl⟩⟩⟩
    · rw [getBegin, hcompute]
      rfl
    · exact b.positionAt_pass hforward k
  · refine ⟨⟨none, some k⟩, ?_, fun _ => ⟨rfl, .inr ⟨hforward, rfl⟩⟩⟩
    rw [getBegin, ← b.positionAt_pass hforward k]
    rfl

theorem Stands.beginCursor_eq {v : Sliced} {k n : Nat} (h : Stands order b v k n) {s : SlicedState}
    (hs : StateOk b k s) :
    ∃ stop s', beginCursor order b v s = .ok (⟨b.positionAt k, stop⟩, s') ∧
      (stop = .count n ∨ stop = .at (k + n)) ∧ (b.traits.forward = true → StateOk b k s') := by
  have hmulti : b.traits.forward = true → (⟨k, s.pass⟩ : Position) = b.positionAt k := by
    intro hforward
    rw [hs.pass, ← b.positionAt_pass hforward k]
    rfl
  cases h with
  | @sliceView from_ _ _ hpos hle =>
    rw [beginCursor]
    by_cases hrandom : b.traits.randomAccess = true
    · rw [if_pos hrandom, hs.pass, hpos, exec_bind_ok, exec_bind_ok, b.positionAt_it,
        jump_eq (Int.natCast_add k n).symm hle, exec_bind_ok]
      exact ⟨_, _, rfl, .inr rfl, fun _ => hs⟩
    · obtain ⟨s', hrun, hok⟩ := getBegin_eq (fun pass => posAt order b pass from_) hs hpos
      rw [if_neg hrandom, hrun, exec_bind_ok]
      exact ⟨_, s', if_neg (by omega), .inl rfl, hok⟩
  | subrange hforward hle =>
    rw [beginCursor, hmulti hforward]
    exact ⟨_, _, rfl, .inr rfl, fun _ => hs⟩
  | dropExactlyView hle =>
    have hpos : nextBegin b none k = .ok (b.positionAt k) := nextBegin_eq (by omega)
    rw [beginCursor, ← hle]
    by_cases hrandom : b.traits.randomAccess = true
    · rw [if_pos hrandom, hs.pass, hpos, exec_bind_ok]
      exact ⟨_, _, rfl, .inr rfl, fun _ => hs⟩
    · obtain ⟨s', hrun, hok⟩ := getBegin_eq (fun pass => nextBegin b pass k) hs hpos
      rw [if_neg hrandom, hrun, exec_bind_ok]
      exact ⟨_, s', rfl, .inr rfl, hok⟩
  | subrangeToEnd hforward hle =>
    rw [beginCursor, hmulti hforward, ← hle]
    exact ⟨_, _, rfl, .inr rfl, fun _ => hs⟩

theorem Stands.opened {v : Sliced} {k n : Nat} (h : Stands order b v k n) {s : SlicedState}
    (hs : Opened order b v s) : StateOk b k s := by
  induction hs with
  | fresh => exact ⟨rfl, .inl rfl⟩
  | again hforward _ hbegin ih =>
    obtain ⟨stop, s', hrun, _, hok⟩ := h.beginCursor_eq ih
    obtain ⟨_, rfl⟩ := Prod.mk.inj (Except.ok.inj (hbegin.symm.trans hrun))
    exact hok hforward

theorem Stands.delivers {v : Sliced} {k n : Nat} (h : Stands order b v k n) {s : SlicedState}
    (hs : Opened order b v s) : (loop order b v s).Delivers ((b.list.drop k).take n) := by
  obtain ⟨stop, s', hrun, hstop, _⟩ := h.beginCursor_eq (h.opened hs)
  refine loop_delivers hrun hstop ?_
  cases h with
  | sliceView _ hle => exact hle
  | subrange _ hle => exact hle
  | dropExactlyView hle => exact Nat.le_of_eq hle
  | subrangeToEnd _ hle => exact Nat.le_of_eq hle

/-- Whether the view has a `size()`. -/
def hasSize (b : BaseRange α) : Sliced → Bool
  | .sliceView _ _ => true
  | .subrange _ _ => true
  | .dropExactlyView _ => b.traits.sized
  | .subrangeToEnd _ => b.traits.sizedSentinel

theorem Stands.size_eq {v : Sliced} {k n : Nat} (h : Stands order b v k n) :
    size b v none = .ok (if hasSize b v then some (n : Int) else none) := by
  cases h with
  | sliceView _ _ => rfl
  | subrange _ _ =>
    have hn : ((k + n : Nat) : Int) - k = n := by omega
    rw [size, hn]
    rfl
  | dropExactlyView hle =>
    have hn : (b.length : Int) - k = n := by omega
    rw [size, BaseRange.size, Option.isSome_none, Bool.and_false, if_neg Bool.false_ne_true,
      exec_bind_ok, hn]
    unfold hasSize
    split <;> rfl
  | subrangeToEnd _ hle =>
    have hn : (b.length : Int) - k = n := by omega
    rw [size, hn]
    unfold hasSize
    split <;> rfl

end Sliced

/-! ## The forms -/

namespace SliceBaseFn
open Sliced

theorem forward_of_random (h : b.traits.randomAccess = true) : b.traits.forward = true :=
  BaseRange.forward_of_bidirectional (b.traits.bidirectional_of_randomAccess h)

theorem impl_stands {from_ : Int} {k n : Nat}
    (hpos : posAt order b none from_ = .ok (b.positionAt k)) (hle : k + n ≤ b.length)
    (common : Bool) :
    ∃ v, impl order b from_ n common = .ok v ∧ Stands order b v k n ∧ hasSize b v = true := by
  rw [impl]
  by_cases hborrowed : (b.borrowed && b.traits.randomAccess && common) = true
  · have hrandom : b.traits.randomAccess = true := by
      simp only [Bool.and_eq_true] at hborrowed
      exact hborrowed.1.2
    rw [if_pos hborrowed, hpos, exec_bind_ok, b.positionAt_it,
      jump_eq (Int.natCast_add k n).symm hle, exec_bind_ok]
    exact ⟨_, rfl, .subrange (forward_of_random hrandom) hle, rfl⟩
  · have hcount : (b.traits.randomAccess && decide ((n : Int) < 0)) = false := by
      rw [decide_eq_false (by omega), Bool.and_false]
    rw [if_neg hborrowed, hcount, if_neg Bool.false_ne_true]
    exact ⟨_, rfl, .sliceView hpos hle, rfl⟩

/-- Whether what is left behind the first elements knows its size. -/
def restHasSize (b : BaseRange α) : Bool :=
  if b.borrowed && b.traits.randomAccess then b.traits.sizedSentinel else b.traits.sized

theorem dropExactly_stands (order : ArgOrder) {k n : Nat} (hle : k + n = b.length) :
    ∃ v, dropExactly b k = .ok v ∧ Stands order b v k n ∧ hasSize b v = restHasSize b := by
  rw [dropExactly]
  unfold restHasSize
  by_cases hborrowed : (b.borrowed && b.traits.randomAccess) = true
  · have hrandom : b.traits.randomAccess = true := by
      simp only [Bool.and_eq_true] at hborrowed
      exact hborrowed.2
    have hzero : ((0 : Nat) : Int) + k = k := by omega
    rw [if_pos hborrowed, if_pos hborrowed, jump_eq hzero (by omega), exec_bind_ok]
    exact ⟨_, rfl, .subrangeToEnd (forward_of_random hrandom) hle, rfl⟩
  · rw [if_neg hborrowed, if_neg hborrowed, if_neg (by omega)]
    exact ⟨_, rfl, .dropExactlyView hle, rfl⟩

end SliceBaseFn

/-- The five forms of the bounds. -/
inductive SliceForm where
  | between | toFromEnd | betweenFromEnd | toEnd | fromEndToEnd
  deriving DecidableEq, Repr

namespace SliceForm
open SliceBaseFn Sliced

/-- The forms that end with the base need the bound at its end. -/
def Fits (f : SliceForm) (length last : Nat) : Prop :=
  f = .toEnd ∨ f = .fromEndToEnd → last = length

/-- The constraints of the overload. -/
def viewable (t : RangeTraits) : SliceForm → Bool
  | .between => true
  | .toFromEnd => t.sized
  | .betweenFromEnd => t.forward || t.sized
  | .toEnd => true
  | .fromEndToEnd => t.forward || t.sized

/-- `views::slice` with the bounds of `[first, last)` written in the form. -/
def view (order : ArgOrder) (b : BaseRange α) (first last : Nat) : SliceForm → Exec Sliced
  | .between => SliceBaseFn.between order b first last
  | .toFromEnd => SliceBaseFn.toFromEnd order b first (endMinus (b.length - last))
  | .betweenFromEnd =>
    SliceBaseFn.betweenFromEnd order b (endMinus (b.length - first)) (endMinus (b.length - last))
  | .toEnd => SliceBaseFn.toEnd b first
  | .fromEndToEnd => SliceBaseFn.fromEndToEnd order b (endMinus (b.length - first))

/-- Every form but the one that drops the front knows its size. -/
def hasSize (b : BaseRange α) : SliceForm → Bool
  | .toEnd => restHasSize b
  | _ => true

/-- The view has the elements of `[first, last)`, and their number for its size. -/
structure Selects (order : ArgOrder) (b : BaseRange α) (f : SliceForm) (first last : Nat)
    (v : Sliced) : Prop where
  elements : ∀ s, Opened order b v s →
    (loop order b v s).Delivers ((b.list.drop first).take (last - first))
  size : Sliced.size b v none = .ok (if f.hasSize b then some ((last : Int) - first) else none)

theorem Selects.of_stands {f : SliceForm} {first last k : Nat} {v : Sliced} (hle : first ≤ last)
    (hstands : Stands order b v k (last - first)) (hsize : Sliced.hasSize b v = f.hasSize b)
    (hbegin : k = first ∨ first = last) : Selects order b f first last v := by
  refine ⟨fun s hs => ?_, ?_⟩
  · have hdelivers := hstands.delivers hs
    obtain rfl | rfl := hbegin
    · exact hdelivers
    · rw [Nat.sub_self, List.take_zero] at hdelivers ⊢
      exact hdelivers
  · rw [hstands.size_eq, hsize, Int.natCast_sub hle]

/-- Written with `end`, the begin of an empty range at the end is the begin of the base. -/
theorem posAt_endMinus {first : Nat} (hfirst : first ≤ b.length)
    (hbase : b.traits.forward = true ∨ b.traits.sized = true)
    (hsize : ¬ (SizedLate order b ∧ first < b.length)) :
    ∃ k, posAt order b none (endMinus (b.length - first)).dist = .ok (b.positionAt k) ∧
      (k = first ∨ first = b.length ∧ k = 0) := by
  rcases Nat.eq_or_lt_of_le hfirst with hend | hlt
  · have hzero : (endMinus (b.length - first)).dist = ((0 : Nat) : Int) := by
      rw [endMinus_dist]
      omega
    rw [hzero]
    exact ⟨0, posAt_front (Nat.zero_le _), .inr ⟨hend, rfl⟩⟩
  · refine ⟨first, posAt_back ?_ ?_ hbase fun hlate => hsize ⟨hlate, hlt⟩, .inl rfl⟩
    · rw [endMinus_dist]
      omega
    · rw [endMinus_dist]
      omega

theorem impl_selects {f : SliceForm} (hf : f.hasSize b = true) {from_ : Int} {first last k : Nat}
    (hle : first ≤ last) (hpos : posAt order b none from_ = .ok (b.positionAt k))
    (hbegin : k = first ∨ first = last) (hlast : k + (last - first) ≤ b.length) (common : Bool) :
    ∃ v, SliceBaseFn.impl order b from_ (last - first : Nat) common = .ok v ∧
      Selects order b f first last v := by
  obtain ⟨v, hrun, hstands, hhas⟩ := impl_stands hpos hlast common
  exact ⟨v, hrun, .of_stands hle hstands (hhas.trans hf.symm) hbegin⟩

/-- With the begin counted from the end. -/
theorem impl_endMinus_selects {f : SliceForm} (hf : f.hasSize b = true) {first last : Nat}
    (hle : first ≤ last) (hlast : last ≤ b.length)
    (hbase : b.traits.forward = true ∨ b.traits.sized = true)
    (hsize : ¬ (SizedLate order b ∧ first < b.length)) (common : Bool) :
    ∃ v, SliceBaseFn.impl order b (endMinus (b.length - first)).dist (last - first : Nat) common =
        .ok v ∧ Selects order b f first last v := by
  obtain ⟨k, hpos, hk⟩ := posAt_endMinus (show first ≤ b.length by omega) hbase hsize
  exact impl_selects hf hle hpos (by omega) (by omega) common

theorem view_selects {f : SliceForm} {first last : Nat} (hle : first ≤ last)
    (hlast : last ≤ b.length) (hfits : f.Fits b.length last) (hview : f.viewable b.traits = true)
    (hsize : ¬ (SizedLate order b ∧ first < b.length)) :
    ∃ v, f.view order b first last = .ok v ∧ Selects order b f first last v := by
  have hcount : ((last : Int) - first) = ((last - first : Nat) : Int) := (Int.natCast_sub hle).symm
  have hfront : posAt order b none first = .ok (b.positionAt first) := posAt_front (by omega)
  cases f with
  | between =>
    obtain ⟨v, hrun, hselects⟩ :=
      impl_selects (f := .between) rfl hle hfront (.inl rfl) (by omega) true
    refine ⟨v, ?_, hselects⟩
    rw [view, SliceBaseFn.between, if_neg (not_not.mpr ⟨by omega, by omega⟩), hcount, hrun]
  | toFromEnd =>
    obtain ⟨v, hrun, hselects⟩ :=
      impl_selects (f := .toFromEnd) rfl hle hfront (.inl rfl) (by omega) true
    have hto : (b.length : Int) + (endMinus (b.length - last)).dist = last := by
      rw [endMinus_dist]
      omega
    refine ⟨v, ?_, hselects⟩
    rw [view, SliceBaseFn.toFromEnd, if_neg (not_not.mpr (Int.natCast_nonneg first)),
      b.distance_eq (.inr (.inr rfl)), exec_bind_ok, exec_bind_ok, hto, if_neg (by omega), hcount,
      hrun]
  | betweenFromEnd =>
    have hbase : b.traits.forward = true ∨ b.traits.sized = true := by
      simpa [viewable] using hview
    obtain ⟨v, hrun, hselects⟩ :=
      impl_endMinus_selects (f := .betweenFromEnd) rfl hle hlast hbase hsize b.traits.common
    have hdiff : (endMinus (b.length - last)).dist - (endMinus (b.length - first)).dist =
        ((last - first : Nat) : Int) := by
      rw [endMinus_dist, endMinus_dist]
      omega
    refine ⟨v, ?_, hselects⟩
    rw [view, SliceBaseFn.betweenFromEnd, if_neg (by omega), hdiff, hrun]
  | toEnd =>
    have hend : last = b.length := hfits (.inl rfl)
    obtain ⟨v, hrun, hstands, hhas⟩ :=
      dropExactly_stands order (show first + (last - first) = b.length by omega)
    refine ⟨v, ?_, .of_stands hle hstands hhas (.inl rfl)⟩
    rw [view, SliceBaseFn.toEnd, if_neg (not_not.mpr (Int.natCast_nonneg first)), hrun]
  | fromEndToEnd =>
    have hend : last = b.length := hfits (.inr rfl)
    have hbase : b.traits.forward = true ∨ b.traits.sized = true := by
      simpa [viewable] using hview
    obtain ⟨v, hrun, hselects⟩ :=
      impl_endMinus_selects (f := .fromEndToEnd) rfl hle hlast hbase hsize b.traits.common
    have hdiff : -(endMinus (b.length - first)).dist = ((last - first : Nat) : Int) := by
      rw [endMinus_dist]
      omega
    refine ⟨v, ?_, hselects⟩
    rw [view, SliceBaseFn.fromEndToEnd, hdiff, hrun]

end SliceForm

end
end EARanges.View
