import EARanges.Algorithm.Sample
import EARanges.Support.Numbered

/-!
# `sample_view`

view/sample.hpp. The number of elements still to be delivered is a member of the view, and
the state of the generator belongs to its engine; both are part of the state of a loop over
the view here, next to the cursor. An element is accepted when the number drawn from
`{0, n - 1}` is below that count, `n` being what is left of the base. Nothing forces
acceptance when the two are equal: it rests on the numbers the distribution draws.
-/
namespace EARanges.View
open EARanges.Support EARanges.Iterator EARanges.Random EARanges.Algorithm

/-- The base, the sample size, and whether the sentinel of the base is sized, in which case
`size_tracker` stores nothing. -/
structure SampleView (α : Type) where
  base : List α
  sampleSize : Nat
  sizedSentinel : Bool

/-- The cursor with what it changes: `size` is `parent_->size_`, `tracker` the size stored
by `size_tracker`, `engine` the state of the generator. -/
structure SampleCursor where
  size : Int
  current : Nat
  tracker : Int
  engine : Nat
  deriving DecidableEq, Repr

namespace SampleView

variable {α : Type} {bits : Nat}

def popSize (v : SampleView α) (c : SampleCursor) : Int :=
  if v.sizedSentinel then v.base.length - c.current else c.tracker

/-- `++current_, size_.decrement()`. -/
def stepOver (v : SampleView α) (c : SampleCursor) : Exec SampleCursor := do
  let current ← incr v.base c.current
  .ok { c with current, tracker := if v.sizedSentinel then c.tracker else c.tracker - 1 }

/-- The loop of `advance`. -/
def advanceLoop (v : SampleView α) (g : WordStream bits) :
    Nat → SampleCursor → Exec SampleCursor
  | 0, _ => .error .fuel
  | fuel + 1, c =>
    -- EARANGES_ASSERT(current_ != ranges::end(parent_->rng_))
    if c.current = v.base.length then .error .fault
    -- EARANGES_EXPECT(n > 0)
    else if v.popSize c > 0 then do
      let (i, engine) ← drawUpTo g (v.popSize c - 1) (fuel + 1) c.engine
      if i < c.size then .ok { c with engine }
      else do
        let c ← v.stepOver { c with engine }
        advanceLoop v g fuel c
    else .error .fault

/-- The loop makes at most one turn for each element and one more. -/
def advance (v : SampleView α) (g : WordStream bits) (c : SampleCursor) : Exec SampleCursor :=
  if c.size > 0 then v.advanceLoop g (v.base.length + 1) c else .ok c

/-- The constructor of the cursor. -/
def beginCursor (v : SampleView α) (g : WordStream bits) : Exec SampleCursor :=
  let c : SampleCursor := ⟨v.sampleSize, 0, v.base.length, 0⟩
  let n := v.popSize c
  v.advance g { c with size := if c.size > n then n else c.size }

def next (v : SampleView α) (g : WordStream bits) (c : SampleCursor) : Exec SampleCursor :=
  -- EARANGES_EXPECT(parent_->size_ > 0), EARANGES_ASSERT(current_ != ranges::end(parent_->rng_))
  if c.size > 0 ∧ c.current ≠ v.base.length then do
    let c ← v.stepOver { c with size := c.size - 1 }
    v.advance g c
  else .error .fault

/-- A loop over the view. -/
def loop (v : SampleView α) (g : WordStream bits) : Loop SampleCursor α where
  start := v.beginCursor g
  atEnd c := .ok (decide (c.size ≤ 0))
  read c := deref v.base c.current
  next := v.next g

/-! ## Acceptance -/

/-- The sizes at which an element is accepted when as many are wanted as are left. -/
def Forced (tag : RngTag) (size : Nat) : Prop := tag = .rng32 ∨ size ≤ 1

theorem Forced.mono {tag : RngTag} {size size' : Nat} (h : Forced tag size) (hle : size' ≤ size) :
    Forced tag size' := h.imp_right hle.trans

/-- A rejection leaves enough elements. -/
theorem Forced.le_of_reject {tag : RngTag} {size x m : Nat} (h : Forced tag size)
    (hx : x < 2 ^ tag.bits) (hreject : size ≤ mulShift x m) : size ≤ m := by
  by_cases hm : m = 0
  · rw [hm, mulShift_zero_right] at hreject
    omega
  · obtain rfl | hsize := h
    · exact Nat.le_of_lt (Nat.lt_of_le_of_lt hreject (mulShift_lt_range hx (Nat.pos_of_ne_zero hm)))
    · omega

/-- The cursor of a view that has `size` elements to deliver, and enough elements left. -/
structure Stands (v : SampleView α) (size : Nat) (c : SampleCursor) : Prop where
  size_eq : c.size = size
  enough : c.current + size ≤ v.base.length
  pop : v.popSize c = v.base.length - c.current

section
variable {v : SampleView α} {size : Nat} {c : SampleCursor}

theorem popSize_stepOver (hpop : v.popSize c = v.base.length - c.current)
    (hlt : c.current < v.base.length) :
    ∃ c', v.stepOver c = .ok c' ∧ c'.size = c.size ∧ c'.current = c.current + 1 ∧
      c'.engine = c.engine ∧ v.popSize c' = v.base.length - c'.current := by
  have hrun : v.stepOver c = .ok { c with
      current := c.current + 1
      tracker := if v.sizedSentinel then c.tracker else c.tracker - 1 } := by
    rw [stepOver, incr_ok hlt, exec_bind_ok]
  refine ⟨_, hrun, rfl, rfl, rfl, ?_⟩
  unfold popSize at hpop ⊢
  dsimp only
  split
  · rfl
  · next hsized =>
    rw [if_neg hsized] at hpop
    omega

/-- The state before the first draw. -/
def firstCursor (v : SampleView α) : SampleCursor :=
  ⟨(min v.sampleSize v.base.length : Nat), 0, v.base.length, 0⟩

theorem popSize_first (v : SampleView α) (size : Int) :
    v.popSize ⟨size, 0, v.base.length, 0⟩ = v.base.length := by
  unfold popSize
  dsimp only
  split
  · exact Int.sub_zero _
  · rfl

theorem stands_first (v : SampleView α) :
    v.Stands (min v.sampleSize v.base.length) v.firstCursor where
  size_eq := rfl
  enough := by
    dsimp only [firstCursor]
    omega
  pop := (v.popSize_first _).trans (Int.sub_zero _).symm

theorem beginCursor_eq (v : SampleView α) (g : WordStream bits) :
    v.beginCursor g = v.advance g v.firstCursor := by
  have hsize : (if (v.sampleSize : Int) > v.base.length then (v.base.length : Int)
      else v.sampleSize) = (min v.sampleSize v.base.length : Nat) := by
    split <;> omega
  rw [beginCursor, v.popSize_first]
  dsimp only
  rw [hsize]
  rfl

/-- One turn of `advance`. -/
theorem advanceLoop_turn (g : WordStream bits) (hmax : (v.base.length : Int) ≤ diffMax)
    (hlt : c.current < v.base.length) (hpop : v.popSize c = v.base.length - c.current)
    {wanted : Nat} (hsize : c.size = wanted) (fuel : Nat) :
    v.advanceLoop g (fuel + 1) c =
      if mulShift (g.word c.engine) (v.base.length - c.current - 1) < wanted then
        .ok { c with engine := c.engine + 1 }
      else v.stepOver { c with engine := c.engine + 1 } >>= v.advanceLoop g fuel := by
  have hleft : v.popSize c - 1 = (v.base.length - c.current - 1 : Nat) := by
    rw [hpop]
    omega
  rw [advanceLoop, if_neg (Nat.ne_of_lt hlt), if_pos (by rw [hpop]; omega), hleft,
    drawUpTo_eq g (by omega), exec_bind_ok, hsize]
  dsimp only
  simp only [Int.ofNat_lt]

theorem Stands.advanceLoop {tag : RngTag} (g : WordStream tag.bits) (hforced : Forced tag size)
    (hmax : (v.base.length : Int) ≤ diffMax) (h : v.Stands size c) (hpos : 0 < size) :
    ∃ c', v.Stands size c' ∧ c.current ≤ c'.current ∧
      ∀ fuel, v.base.length - c.current ≤ fuel → v.advanceLoop g (fuel + 1) c = .ok c' := by
  induction hk : v.base.length - c.current generalizing c with
  | zero =>
    have henough := h.enough
    omega
  | succ k ih =>
    have henough := h.enough
    have hlt : c.current < v.base.length := by omega
    have hturn := advanceLoop_turn g hmax hlt h.pop h.size_eq
    by_cases haccept : mulShift (g.word c.engine) (v.base.length - c.current - 1) < size
    · refine ⟨{ c with engine := c.engine + 1 }, ⟨h.size_eq, henough, h.pop⟩, Nat.le_refl _,
        fun fuel _ => ?_⟩
      rw [hturn, if_pos haccept]
    · have hleft := hforced.le_of_reject (g.word_lt _) (Nat.le_of_not_lt haccept)
      obtain ⟨c', hstep, hsize', hcurrent', _, hpop'⟩ :=
        popSize_stepOver (v := v) (c := { c with engine := c.engine + 1 }) h.pop hlt
      dsimp only at hsize' hcurrent'
      obtain ⟨c'', hstands, hle, hrun⟩ := ih (c := c')
        ⟨hsize'.trans h.size_eq, by omega, hpop'⟩ (by omega)
      refine ⟨c'', hstands, by omega, fun fuel hfuel => ?_⟩
      obtain ⟨fuel, rfl⟩ := Nat.exists_eq_add_of_le' (Nat.le_trans (Nat.succ_pos k) hfuel)
      rw [hturn, if_neg haccept, hstep, exec_bind_ok, hrun fuel (by omega)]

theorem Stands.advance {tag : RngTag} (g : WordStream tag.bits) (hforced : Forced tag size)
    (hmax : (v.base.length : Int) ≤ diffMax) (h : v.Stands size c) :
    ∃ c', v.advance g c = .ok c' ∧ v.Stands size c' ∧ c.current ≤ c'.current := by
  have hsize := h.size_eq
  rcases Nat.eq_zero_or_pos size with hzero | hpos
  · exact ⟨c, if_neg (by omega), h, Nat.le_refl _⟩
  · obtain ⟨c', hstands, hle, hrun⟩ := h.advanceLoop g hforced hmax hpos
    refine ⟨c', ?_, hstands, hle⟩
    rw [SampleView.advance, if_pos (by omega), hrun _ (Nat.sub_le _ _)]

theorem Stands.collect {tag : RngTag} (g : WordStream tag.bits) (hforced : Forced tag size)
    (hmax : (v.base.length : Int) ≤ diffMax) (h : v.Stands size c) :
    ∃ zs, zs.Sublist (v.base.drop c.current) ∧ zs.length = size ∧
      ∀ fuel, (v.loop g).collect (size + 1 + fuel) c = .ok zs := by
  induction size generalizing c with
  | zero =>
    refine ⟨[], List.nil_sublist _, rfl, fun fuel => ?_⟩
    have hend : (v.loop g).atEnd c = .ok true := congrArg Except.ok (decide_eq_true (by
      rw [h.size_eq]
      rfl))
    rw [Nat.zero_add, Nat.add_comm, Loop.collect, hend]
    rfl
  | succ size ih =>
    have hsize := h.size_eq
    have henough := h.enough
    have hlt : c.current < v.base.length := by omega
    obtain ⟨c', hstep, hsize', hcurrent', _, hpop'⟩ :=
      popSize_stepOver (v := v) (c := { c with size := c.size - 1 }) h.pop hlt
    dsimp only at hsize' hcurrent'
    have hforced' := hforced.mono (Nat.le_succ size)
    obtain ⟨c'', hadvance, hstands, hle⟩ :=
      Stands.advance (v := v) (c := c') g hforced' hmax
        ⟨by omega, by omega, hpop'⟩
    obtain ⟨zs, hsub, hlen, hrun⟩ := ih hforced' hstands
    refine ⟨v.base[c.current] :: zs, ?_, by rw [List.length_cons, hlen], fun fuel => ?_⟩
    · rw [List.drop_eq_getElem_cons hlt]
      exact (hsub.trans (List.drop_sublist_drop_left v.base (by omega))).cons_cons _
    · have hend : (v.loop g).atEnd c = .ok false :=
        congrArg Except.ok (decide_eq_false (by omega))
      have hread : (v.loop g).read c = .ok v.base[c.current] := deref_eq hlt
      have hnext : (v.loop g).next c = .ok c'' := by
        change v.next g c = _
        rw [next, if_pos ⟨by omega, Nat.ne_of_lt hlt⟩, hstep, exec_bind_ok, hadvance]
      rw [Nat.add_right_comm, Loop.collect, hend, exec_bind_ok]
      simp only [Bool.false_eq_true, if_false, hread, hnext, exec_bind_ok, hrun fuel]

theorem Stands.delivers {tag : RngTag} (g : WordStream tag.bits)
    (hmax : (v.base.length : Int) ≤ diffMax)
    (hforced : Forced tag (min v.sampleSize v.base.length)) :
    ∃ zs, (v.loop g).Delivers zs ∧ zs.Sublist v.base ∧
      zs.length = min v.sampleSize v.base.length := by
  obtain ⟨c, hbegin, hstands, _⟩ := Stands.advance g hforced hmax v.stands_first
  obtain ⟨zs, hsub, hlen, hrun⟩ := hstands.collect g hforced hmax
  refine ⟨zs, .of_forall (min v.sampleSize v.base.length + 1) fun fuel => ?_,
    hsub.trans (List.drop_sublist _ _), hlen⟩
  have hstart : (v.loop g).start = .ok c := (v.beginCursor_eq g).trans hbegin
  rw [Loop.elements, hstart, exec_bind_ok]
  exact hrun fuel

end

/-! ## A generator that rejects -/

/-- Accepts the first `accepted` elements of `length`, and then rejects all but the last. -/
def rejecting (length accepted : Nat) : WordStream (RngTag.bits .rng64) where
  word p := if p < accepted then 0 else 0xffffffffffffffff / (length - p - 1)
  word_lt p := by
    have hle := Nat.div_le_self 0xffffffffffffffff (length - p - 1)
    have hbits : 2 ^ RngTag.bits .rng64 = 0x10000000000000000 := rfl
    split <;> omega

/-- Before a draw about the element at `current`, which takes the word of its number. -/
structure Draws (v : SampleView α) (size : Nat) (c : SampleCursor) : Prop where
  size_eq : c.size = size
  engine_eq : c.engine = c.current
  pop : v.popSize c = v.base.length - c.current

section
variable {v : SampleView α} {size accepted : Nat} {c : SampleCursor}

theorem Draws.to_last (hmax : (v.base.length : Int) ≤ diffMax) (h : v.Draws size c)
    (hlt : c.current < v.base.length) (haccepted : accepted ≤ c.current) (hpos : 0 < size)
    (hsmall : size ≤ 0x80000000) :
    ∃ c' : SampleCursor, c'.size = size ∧ c'.current + 1 = v.base.length ∧
      ∀ fuel, v.base.length - c.current ≤ fuel →
        v.advanceLoop (rejecting v.base.length accepted) (fuel + 1) c = .ok c' := by
  induction hk : v.base.length - c.current generalizing c with
  | zero => omega
  | succ k ih =>
    have hturn := advanceLoop_turn (rejecting v.base.length accepted) hmax hlt h.pop h.size_eq
    have hword : (rejecting v.base.length accepted).word c.engine = 0xffffffffffffffff / k := by
      rw [h.engine_eq, rejecting]
      dsimp only
      rw [if_neg (by omega)]
      congr 1
      omega
    have hleft : v.base.length - c.current - 1 = k := by omega
    rw [hword, hleft] at hturn
    by_cases hlast : k = 0
    · refine ⟨{ c with engine := c.engine + 1 }, h.size_eq, by dsimp only; omega, fun fuel _ => ?_⟩
      rw [hturn, if_pos (by rw [hlast, mulShift_zero_right]; exact hpos)]
    · unfold diffMax at hmax
      have hreject := le_mulShift_div (Nat.pos_of_ne_zero hlast) (by omega)
      obtain ⟨c', hstep, hsize', hcurrent', hengine', hpop'⟩ :=
        popSize_stepOver (v := v) (c := { c with engine := c.engine + 1 }) h.pop hlt
      dsimp only at hsize' hcurrent' hengine'
      have hengine := h.engine_eq
      obtain ⟨c'', hsize'', hcurrent'', hrun⟩ := ih (c := c')
        ⟨hsize'.trans h.size_eq, by omega, hpop'⟩ (by omega) (by omega) (by omega)
      refine ⟨c'', hsize'', hcurrent'', fun fuel hfuel => ?_⟩
      obtain ⟨fuel, rfl⟩ := Nat.exists_eq_add_of_le' (Nat.le_trans (Nat.succ_pos k) hfuel)
      rw [hturn, if_neg (by omega), hstep, exec_bind_ok, hrun fuel (by omega)]

/-- At the last element with another one to deliver, the cursor runs past the end. -/
theorem collect_last {bits : Nat} (g : WordStream bits) (hsize : c.size = size) (htwo : 2 ≤ size)
    (hlast : c.current + 1 = v.base.length) (fuel : Nat) (zs : List α) :
    (v.loop g).collect fuel c ≠ .ok zs := by
  cases fuel with
  | zero => exact nofun
  | succ fuel =>
    have hlt : c.current < v.base.length := by omega
    have hend : (v.loop g).atEnd c = .ok false := congrArg Except.ok (decide_eq_false (by omega))
    have hread : (v.loop g).read c = .ok v.base[c.current] := deref_eq hlt
    have hnext : (v.loop g).next c = .error .fault := by
      change v.next g c = _
      rw [next, if_pos ⟨by omega, Nat.ne_of_lt hlt⟩, stepOver, incr_ok hlt]
      simp only [exec_bind_ok]
      rw [advance, if_pos (by dsimp only; omega), advanceLoop, if_pos hlast]
    intro hrun
    rw [Loop.collect, hend, exec_bind_ok] at hrun
    simp only [Bool.false_eq_true, if_false, hread, hnext, exec_bind_ok, exec_bind_error] at hrun
    cases hrun

theorem Draws.never (accepted kept : Nat) (hmax : (v.base.length : Int) ≤ diffMax)
    (h : v.Draws size c) (hcurrent : c.current ≤ accepted)
    (hsize : size = accepted - c.current + kept)
    (htwo : 2 ≤ kept) (hsmall : kept ≤ 0x80000000) (henough : c.current + size ≤ v.base.length)
    (fuel : Nat) (zs : List α) :
    (v.advance (rejecting v.base.length accepted) c >>=
      (v.loop (rejecting v.base.length accepted)).collect fuel) ≠ .ok zs := by
  have hsize_eq := h.size_eq
  have hlt : c.current < v.base.length := by omega
  rw [advance, if_pos (by omega)]
  induction hk : accepted - c.current generalizing c size fuel zs with
  | zero =>
    have haccepted : accepted ≤ c.current := by omega
    obtain ⟨c', hsize', hlast, hrun⟩ := h.to_last hmax hlt haccepted (by omega) (by omega)
    rw [hrun _ (Nat.sub_le _ _), exec_bind_ok]
    exact collect_last _ hsize' (by omega) hlast fuel zs
  | succ k ih =>
    have hword : (rejecting v.base.length accepted).word c.engine = 0 := by
      rw [h.engine_eq, rejecting]
      exact if_pos (by omega)
    rw [advanceLoop_turn _ hmax hlt h.pop h.size_eq, hword, mulShift_zero_left,
      if_pos (by omega), exec_bind_ok]
    cases fuel with
    | zero => exact nofun
    | succ fuel =>
      obtain ⟨c', hstep, hsize', hcurrent', hengine', hpop'⟩ := popSize_stepOver (v := v)
        (c := { c with engine := c.engine + 1, size := c.size - 1 }) h.pop hlt
      dsimp only at hsize' hcurrent' hengine'
      have hengine := h.engine_eq
      have hend : (v.loop (rejecting v.base.length accepted)).atEnd
          { c with engine := c.engine + 1 } = .ok false :=
        congrArg Except.ok (decide_eq_false (by dsimp only; omega))
      have hread : (v.loop (rejecting v.base.length accepted)).read
          { c with engine := c.engine + 1 } = .ok v.base[c.current] := deref_eq hlt
      have hnext : (v.loop (rejecting v.base.length accepted)).next
          { c with engine := c.engine + 1 } =
            v.advanceLoop (rejecting v.base.length accepted) (v.base.length + 1) c' := by
        change v.next _ _ = _
        rw [next, if_pos ⟨by dsimp only; omega, Nat.ne_of_lt hlt⟩, hstep, exec_bind_ok, advance,
          if_pos (by omega)]
      intro hrun
      rw [Loop.collect, hend, exec_bind_ok] at hrun
      simp only [Bool.false_eq_true, if_false, hread, hnext, exec_bind_ok] at hrun
      obtain ⟨c'', hadvance, hrun⟩ := exec_bind_eq_ok.mp hrun
      obtain ⟨zs', hrest, _⟩ := exec_bind_eq_ok.mp hrun
      have hdraws : v.Draws (size - 1) c' := ⟨by omega, by omega, hpop'⟩
      refine ih hdraws (by omega) (by omega)
        (by omega) fuel zs' (by omega) (by omega) (by omega) ?_
      rw [hadvance, exec_bind_ok, hrest]

/-- With words of 64 bits a sample of two or more can run past the end. -/
theorem rejecting_never (hmax : (v.base.length : Int) ≤ diffMax)
    (htwo : 2 ≤ min v.sampleSize v.base.length) (zs : List α) :
    ¬ (v.loop (rejecting v.base.length (min v.sampleSize v.base.length - 0x80000000))).Delivers
      zs := by
  rintro ⟨bound, hrun⟩
  have hdraws : v.Draws (min v.sampleSize v.base.length) v.firstCursor :=
    ⟨rfl, rfl, v.stands_first.pop⟩
  have henough := v.stands_first.enough
  have hzero : v.firstCursor.current = 0 := rfl
  refine hdraws.never (min v.sampleSize v.base.length - 0x80000000)
    (min (min v.sampleSize v.base.length) 0x80000000) hmax (by omega) (by omega) (by omega)
    (by omega) henough bound zs ?_
  rw [← v.beginCursor_eq]
  exact hrun bound (Nat.le_refl _)

end

end SampleView

/-! ## Sampling -/

/-- What sampling `n` elements of `rng` promises: the sized path and the view deliver a
subsequence, the reservoir elements from distinct positions, each of them `min n` the length
of `rng` elements; no run faults. -/
structure Samples {α : Type} (tag : RngTag) (rng : List α) (n : Nat) : Prop where
  sized : ∀ g : WordStream tag.bits, ∃ first out,
    Returns (sampleSized g rng n) (first, out) ∧ out.Sublist rng ∧
      out.length = min n rng.length
  reservoir : ∀ (g : WordStream tag.bits) (cells : List α), cells.length = min n rng.length →
    ∃ first out, Returns (sampleReservoir g rng n cells) (first, min n rng.length, out) ∧
      out.Subperm rng ∧ out.length = min n rng.length
  view : ∀ (sizedSentinel : Bool) (g : WordStream tag.bits), ∃ out,
    (SampleView.loop ⟨rng, n, sizedSentinel⟩ g).Delivers out ∧ out.Sublist rng ∧
      out.length = min n rng.length

end EARanges.View
