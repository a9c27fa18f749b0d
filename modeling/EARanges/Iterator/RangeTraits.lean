import EARanges.Iterator.Advance
import EARanges.Support.Lockstep

/-!
# What a view knows of its base

The properties of a base range that a view adaptor branches on, and the bounded moves
`ranges::next(it, n, end)` and `ranges::prev(it, n, begin)` as functions of positions.
`IfConstexpr` tells the two implementations of `advance` apart.
-/
namespace EARanges.Iterator
open EARanges.Support

inductive Category where
  | input | forward | bidirectional | randomAccess
  deriving DecidableEq, Repr

/-- Whether `EARANGES_CXX_IF_CONSTEXPR` reaches C++17. -/
inductive IfConstexpr where
  | cxx17 | older
  deriving DecidableEq, Repr

/-- `sizedIterator` and `sizedSentinel` are `sized_sentinel_for` an iterator of the
range, of the iterator type and of the sentinel type. -/
structure RangeTraits where
  category : Category
  common : Bool
  sized : Bool
  sizedIterator : Bool
  sizedSentinel : Bool
  sized_of_random : category = .randomAccess → sizedIterator = true
  sentinel_of_common : common = true → sizedSentinel = sizedIterator
  deriving DecidableEq, Repr

namespace RangeTraits

def randomAccess (t : RangeTraits) : Bool := t.category == .randomAccess

def bidirectional (t : RangeTraits) : Bool :=
  t.category == .bidirectional || t.category == .randomAccess

def forward (t : RangeTraits) : Bool := t.category != .input

def iterTraits (t : RangeTraits) : IterTraits where
  randomAccess := t.randomAccess
  sizedSentinel := t.sizedIterator
  sized_of_random := by
    intro h
    exact t.sized_of_random (of_decide_eq_true h)

theorem bidirectional_of_randomAccess (t : RangeTraits) (h : t.randomAccess = true) :
    t.bidirectional = true := by
  unfold bidirectional
  unfold randomAccess at h
  rw [h, Bool.or_true]

/-- An array. -/
def ofArray : RangeTraits := ⟨.randomAccess, true, true, true, true, by decide, by decide⟩

/-- A random-access range that knows its size and ends at a sentinel. -/
def ofCounted : RangeTraits := ⟨.randomAccess, false, true, true, false, by decide, by decide⟩

/-- A doubly linked list that knows its size. -/
def ofList : RangeTraits := ⟨.bidirectional, true, true, false, false, by decide, by decide⟩

end RangeTraits

def advanceFn : IfConstexpr → IterTraits → Nat → Walker → Int → Int → Exec (Walker × Int)
  | .cxx17 => advance
  | .older => bounded

/-- `advance(it, n)`. -/
def advanceBy (t : RangeTraits) (length it : Nat) (n : Int) : Exec Nat := do
  let w ← advanceN t.iterTraits length ⟨it, []⟩ n
  .ok w.pos.toNat

/-- `advance(it, n, bound)` for a bound that is an iterator of a bidirectional range. -/
def advanceTo (lang : IfConstexpr) (t : RangeTraits) (length it : Nat) (n : Int) (bound : Nat) :
    Exec (Nat × Int) := do
  let (w, rest) ← advanceFn lang t.iterTraits length ⟨it, []⟩ n bound
  .ok (w.pos.toNat, rest)

/-- `advance(it, n, end)` for an end that cannot be stepped back from: a sentinel of
another type, or a forward iterator. Both implementations do the same. -/
def advanceSentinel (t : RangeTraits) (length it : Nat) (n : Int) : Exec (Nat × Int) :=
  if t.sizedSentinel then
    if n = 0 then .ok (it, 0)
    else
      let d : Int := length - it
      if ¬ (0 ≤ n ∧ 0 ≤ d) then .error .fault
      else if d ≤ n then .ok (length, n - d)
      else do
        let w ← advanceN t.iterTraits length ⟨it, []⟩ n
        .ok (w.pos.toNat, 0)
  else if ¬ 0 ≤ n then .error .fault
  else do
    let (w, rest) ← whileForward length length n.toNat ⟨it, []⟩
    .ok (w.pos.toNat, rest)

/-- `while(it != end) ++it`, for at most `fuel` tests. -/
def untilEnd (length : Nat) : Nat → Nat → Exec Nat
  | 0, _ => .error .fuel
  | fuel + 1, it =>
    if it = length then .ok it
    else do
      let it ← incrTo length it
      untilEnd length fuel it

/-- `advance(it, ranges::end(rng))`. -/
def advanceToEnd (t : RangeTraits) (length it : Nat) : Exec Nat :=
  if t.common then .ok length
  else if t.sizedSentinel then
    let d : Int := length - it
    if ¬ 0 ≤ d then .error .fault
    else advanceBy t length it d
  else untilEnd length (length + 1) it

/-- `advance(it, n, ranges::end(rng))`. -/
def advanceEnd (lang : IfConstexpr) (t : RangeTraits) (length it : Nat) (n : Int) :
    Exec (Nat × Int) :=
  if t.common && t.bidirectional then advanceTo lang t length it n length
  else advanceSentinel t length it n

/-- `next(it, n, ranges::end(rng))`. -/
def nextEnd (lang : IfConstexpr) (t : RangeTraits) (length it : Nat) (n : Int) : Exec Nat := do
  let (it, _) ← advanceEnd lang t length it n
  .ok it

/-- `prev(it, n, bound)`. -/
def prevTo (lang : IfConstexpr) (t : RangeTraits) (length it : Nat) (n : Int) (bound : Nat) :
    Exec Nat := do
  let (it, _) ← advanceTo lang t length it (-n) bound
  .ok it

/-- A `non_propagating_cache` of an iterator, filled on first use. -/
def memoised (cache : Option Nat) (compute : Exec Nat) : Exec (Option Nat × Nat) :=
  match cache with
  | some it => .ok (some it, it)
  | none => do
    let it ← compute
    .ok (some it, it)

theorem memoised_eq {cache : Option Nat} {compute : Exec Nat} {it : Nat}
    (hcache : cache = none ∨ cache = some it) (hrun : compute = .ok it) :
    memoised cache compute = .ok (some it, it) := by
  obtain rfl | rfl := hcache
  · rw [memoised, hrun]
    rfl
  · rfl

/-- `prev(end, n, begin)` of an empty range is the call that leaves the range: the C++17
stepping branch decrements before it compares. -/
structure StepsBeforeBegin (lang : IfConstexpr) (t : RangeTraits) (length n : Nat) : Prop where
  stepping : lang = .cxx17
  unsized : t.sizedIterator = false
  empty : length = 0
  moves : 0 < n

theorem advanceBy_eq (t : RangeTraits) {length it : Nat} {n : Int} {target : Nat}
    (hit : it ≤ length) (htarget : target ≤ length) (hn : (it : Int) + n = target) :
    advanceBy t length it n = .ok target := by
  have hlow : (0 : Int) ≤ it + n := by omega
  have hhigh : (it : Int) + n ≤ length := by omega
  obtain ⟨w, hrun, hpos, _⟩ := advanceN_spec t.iterTraits (Int.natCast_nonneg it)
    (Int.ofNat_le.mpr hit) hlow hhigh
  rw [advanceBy, hrun, exec_bind_ok, hpos, hn]
  rfl

theorem untilEnd_eq {length fuel it : Nat} (hit : it ≤ length) (hfuel : length - it < fuel) :
    untilEnd length fuel it = .ok length := by
  induction fuel generalizing it with
  | zero => omega
  | succ fuel ih =>
    rw [untilEnd]
    by_cases hend : it = length
    · rw [if_pos hend, hend]
    · have hincr : incrTo length it = .ok (it + 1) := incrTo_ok (by omega)
      rw [if_neg hend, hincr, exec_bind_ok]
      exact ih (by omega) (by omega)

theorem advanceToEnd_eq (t : RangeTraits) {length it : Nat} (hit : it ≤ length) :
    advanceToEnd t length it = .ok length := by
  unfold advanceToEnd
  split
  · rfl
  · split
    · dsimp only
      rw [if_neg (by omega)]
      exact advanceBy_eq t hit (Nat.le_refl length) (by omega)
    · exact untilEnd_eq hit (by omega)

theorem advanceTo_of_law {lang : IfConstexpr} {t : RangeTraits} {length it bound : Nat} {n : Int}
    (h : Reaches length it n bound)
    (hok : lang = .older ∨ t.sizedIterator = true ∨ 0 ≤ n ∨ bound ≠ it) :
    advanceTo lang t length it n bound =
      .ok ((nearer it n bound).toNat, n - (nearer it n bound - it)) := by
  have hlaw : BoundedLaw (advanceFn lang t.iterTraits length ⟨it, []⟩ n bound) it n bound := by
    cases lang with
    | older => exact bounded_law t.iterTraits h
    | cxx17 =>
      apply advance_law t.iterTraits h
      obtain hold | hsized | hn | hne := hok
      · cases hold
      · exact .inl hsized
      · exact .inr (.inl hn)
      · exact .inr (.inr (by omega))
  obtain ⟨w, hrun, hpos, _⟩ := hlaw
  unfold advanceTo
  rw [hrun, ← hpos]
  rfl

/-- Stepping back from the begin of an empty range. -/
theorem advanceTo_fault {t : RangeTraits} {length bound : Nat} {n : Int} (hn : n < 0)
    (ht : t.sizedIterator = false) :
    advanceTo .cxx17 t length 0 n bound = .error .fault := by
  have hsized : t.iterTraits.sizedSentinel = false := ht
  have hdec : Walker.dec length ⟨((0 : Nat) : Int), []⟩ = .error .fault := rfl
  simp only [advanceTo, advanceFn, advance, hsized, Bool.false_eq_true, if_false, hn, if_true,
    doBackward_eq, hdec, exec_bind_error]

theorem advanceSentinel_eq {t : RangeTraits} {length it : Nat} (hit : it ≤ length) (n : Nat) :
    advanceSentinel t length it n =
      .ok (min (it + n) length, ((n - min n (length - it) : Nat) : Int)) := by
  unfold advanceSentinel
  split
  · by_cases hzero : (n : Int) = 0
    · have hn : n = 0 := by omega
      subst hn
      simp [hit]
    rw [if_neg hzero]
    dsimp only
    rw [if_neg (by omega)]
    by_cases hfar : (length : Int) - it ≤ n
    · rw [if_pos hfar, Nat.min_eq_right (by omega)]
      congr 2
      omega
    · rw [if_neg hfar]
      have hrun := advanceBy_eq t hit (by omega : it + n ≤ length) (Int.natCast_add it n).symm
      rw [advanceBy] at hrun
      obtain ⟨w, hw, hpos⟩ := exec_bind_eq_ok.mp hrun
      rw [hw, exec_bind_ok, Except.ok.inj hpos, Nat.min_eq_left (by omega),
        Nat.min_eq_left (by omega), Nat.sub_self]
      rfl
  · rw [if_neg (by omega)]
    have hreach : Reaches length it n length :=
      ⟨by omega, by omega, by omega, by omega, by omega, by omega⟩
    obtain ⟨w, hrun, hpos, _⟩ := whileForward_law hreach (by omega)
    rw [hrun]
    simp only [exec_bind_ok, hpos]
    unfold nearer
    congr 2 <;> split <;> omega

/-- `n` steps towards the end, or as many as there are. -/
theorem advanceEnd_eq {lang : IfConstexpr} {t : RangeTraits} {length it : Nat}
    (hit : it ≤ length) (n : Nat) :
    advanceEnd lang t length it n =
      .ok (min (it + n) length, ((n - min n (length - it) : Nat) : Int)) := by
  unfold advanceEnd
  split
  · have hreach : Reaches length it n length :=
      ⟨by omega, by omega, by omega, by omega, by omega, by omega⟩
    rw [advanceTo_of_law hreach (.inr (.inr (.inl (Int.natCast_nonneg n))))]
    unfold nearer
    congr 2 <;> split <;> omega
  · exact advanceSentinel_eq hit n

theorem nextEnd_eq {lang : IfConstexpr} {t : RangeTraits} {length it : Nat}
    (hit : it ≤ length) (n : Nat) :
    nextEnd lang t length it n = .ok (min (it + n) length) := by
  rw [nextEnd, advanceEnd_eq hit n]
  rfl

/-- `n` steps towards the begin, or as many as there are. -/
theorem advanceTo_begin_eq {lang : IfConstexpr} {t : RangeTraits} {length it : Nat} (n : Nat)
    (hit : it ≤ length) (hpos : 0 < it) :
    advanceTo lang t length it (-n) 0 = .ok (it - n, -((n - min n it : Nat) : Int)) := by
  have hreach : Reaches length it (-n) 0 :=
    ⟨by omega, by omega, by omega, by omega, by omega, by omega⟩
  have hnear : nearer it (-n) ((0 : Nat) : Int) = (it : Int) - min n it := by
    unfold nearer
    split <;> omega
  rw [advanceTo_of_law hreach (.inr (.inr (.inr (Nat.ne_of_lt hpos)))), hnear]
  congr 2 <;> omega

/-- `n` steps back from the end, or as many as there are. -/
theorem prevTo_begin_eq {lang : IfConstexpr} {t : RangeTraits} {length n : Nat}
    (hok : ¬ StepsBeforeBegin lang t length n) :
    prevTo lang t length length n 0 = .ok (length - n) := by
  have hreach : Reaches length length (-n) 0 :=
    ⟨by omega, by omega, by omega, by omega, by omega, by omega⟩
  have hstays : lang = .older ∨ t.sizedIterator = true ∨ 0 ≤ -(n : Int) ∨ 0 ≠ length := by
    by_contra hno
    simp only [not_or] at hno
    obtain ⟨hlang, hsized, hn, hlen⟩ := hno
    apply hok
    refine ⟨?_, Bool.eq_false_of_not_eq_true hsized, by omega, by omega⟩
    cases lang with
    | cxx17 => rfl
    | older => exact absurd rfl hlang
  rw [prevTo, advanceTo_of_law hreach hstays]
  simp only [exec_bind_ok]
  unfold nearer
  congr 1
  split <;> omega

theorem StepsBeforeBegin.fault {lang : IfConstexpr} {t : RangeTraits} {length n : Nat}
    (h : StepsBeforeBegin lang t length n) :
    prevTo lang t length length n 0 = .error .fault := by
  obtain ⟨rfl, hsized, rfl, hn⟩ := h
  rw [prevTo, advanceTo_fault (by omega) hsized]
  rfl

end EARanges.Iterator
