import EARanges.Random.UniformInt
import EARanges.Support.InPlace
import Mathlib.Data.Fintype.Perm

/-!
# `shuffle`

algorithm/shuffle.hpp, for iterators with 64-bit differences. An iterator is an index into
the range, and a swap with a position outside the range faults. The partner of `mid` is
drawn from `{0, mid - first}` by the distribution of EASTL/random.h: words of 32 bits never
draw the first position, words of 64 bits draw positions in front of the range.
-/
namespace EARanges.Algorithm
open EARanges.Support EARanges.Iterator EARanges.Random

variable {α : Type}

/-- `if(i) ranges::iter_swap(mid - i, mid)`. -/
def swapBack (l : List α) (mid : Nat) (i : Int) : Exec (List α) :=
  if i = 0 then .ok l
  else if 0 ≤ (mid : Int) - i then iterSwap l ((mid : Int) - i).toNat mid
  else .error .fault

/-- `while(++mid != last)`, from the test on: `next` is the state of the generator. -/
def shuffleLoop {bits : Nat} (g : WordStream bits) :
    Nat → List α → Nat → Nat → Exec (List α × Nat)
  | 0, _, _, _ => .error .fuel
  | fuel + 1, l, mid, next =>
    if mid = l.length then .ok (l, mid)
    -- EARANGES_ENSURE(mid - first <= PTRDIFF_MAX)
    else if (mid : Int) ≤ diffMax then do
      let (i, next) ← drawUpTo g mid (fuel + 1) next
      let l ← swapBack l mid i
      shuffleLoop g fuel l (mid + 1) next
    else .error .fault

/-- The shuffled range and the iterator returned. -/
def shuffle {bits : Nat} (g : WordStream bits) (l : List α) (fuel : Nat) : Exec (List α × Nat) :=
  if l.length = 0 then .ok (l, 0) else shuffleLoop g fuel l 1 0

/-! ## One turn -/

/-- A partner that is in the range, and not its first position. -/
theorem swapBack_eq {l : List α} {mid i : Nat} (hi : i < mid) (hmid : mid < l.length) :
    ∃ r, swapBack l mid i = .ok r ∧ r.Perm l ∧ r[0]? = l[0]? := by
  unfold swapBack
  split
  · exact ⟨l, rfl, .refl l, rfl⟩
  · have hx := List.getElem?_eq_getElem (show mid - i < l.length by omega)
    have hy : l[mid]? = some l[mid] := List.getElem?_eq_getElem hmid
    have hpartner : ((mid : Int) - i).toNat = mid - i := by omega
    refine ⟨_, ?_, (perm_swap hx hy).symm, getElem?_swap_ne (by omega) (by omega) _ _⟩
    rw [if_pos (by omega), hpartner]
    exact iterSwap_eq hx hy

theorem swapBack_fault {l : List α} {mid i : Nat} (hi : mid < i) :
    swapBack l mid i = .error .fault := by
  rw [swapBack, if_neg (by omega), if_neg (by omega)]

section
variable {bits : Nat} (g : WordStream bits) {l : List α} {mid : Nat}

/-- The partner of `mid` in a turn is `mulShift` positions in front of it. -/
theorem shuffleLoop_turn (hmid : mid < l.length) (hmax : (mid : Int) ≤ diffMax) (fuel next : Nat) :
    shuffleLoop g (fuel + 1) l mid next =
      swapBack l mid (mulShift (g.word next) mid : Nat) >>= fun l =>
        shuffleLoop g fuel l (mid + 1) (next + 1) := by
  rw [shuffleLoop, if_neg (Nat.ne_of_lt hmid), if_pos hmax, drawUpTo_eq g hmax]
  rfl

theorem shuffleLoop_step (hmid : mid < l.length) (hmax : (mid : Int) ≤ diffMax) {next : Nat}
    (hpartner : mulShift (g.word next) mid < mid) :
    ∃ r, (∀ fuel, shuffleLoop g (fuel + 1) l mid next = shuffleLoop g fuel r (mid + 1) (next + 1)) ∧
      r.Perm l ∧ r[0]? = l[0]? := by
  obtain ⟨r, hrun, hperm, hfirst⟩ := swapBack_eq hpartner hmid
  refine ⟨r, fun fuel => ?_, hperm, hfirst⟩
  rw [shuffleLoop_turn g hmid hmax, hrun, exec_bind_ok]

end

/-! ## Words of 32 bits -/

/-- A shuffle that ends has left the first element where it was. -/
theorem shuffleLoop_first {g : WordStream 32} {l r : List α} {fuel mid next last : Nat}
    (hpos : 0 < mid) (hmid : mid ≤ l.length) (h : shuffleLoop g fuel l mid next = .ok (r, last)) :
    r[0]? = l[0]? := by
  induction fuel generalizing l mid next with
  | zero => cases h
  | succ fuel ih =>
    rcases Nat.lt_or_eq_of_le hmid with hlt | rfl
    · by_cases hmax : (mid : Int) ≤ diffMax
      · obtain ⟨l', hstep, hperm, hfirst⟩ :=
          shuffleLoop_step g hlt hmax (mulShift_lt_range (g.word_lt next) hpos)
        rw [hstep] at h
        rw [ih (Nat.succ_pos mid) (by rw [hperm.length_eq]; exact hlt) h, hfirst]
      · rw [shuffleLoop, if_neg (Nat.ne_of_lt hlt), if_neg hmax] at h
        cases h
    · rw [shuffleLoop, if_pos rfl] at h
      obtain ⟨rfl, _⟩ := Prod.mk.inj (Except.ok.inj h)
      rfl

/-- Every swap stays inside the range. -/
theorem shuffleLoop_rng32 (g : WordStream 32) {l : List α} (mid : Nat) (hpos : 0 < mid)
    (hmid : mid ≤ l.length) (hmax : (l.length : Int) ≤ diffMax + 1) (next : Nat) :
    ∃ r, r.Perm l ∧ ∀ fuel, l.length - mid < fuel →
      shuffleLoop g fuel l mid next = .ok (r, l.length) := by
  induction hk : l.length - mid generalizing l mid next with
  | zero =>
    have hend : mid = l.length := by omega
    refine ⟨l, .refl l, fun fuel hfuel => ?_⟩
    obtain ⟨fuel, rfl⟩ := Nat.exists_eq_succ_of_ne_zero (Nat.ne_of_gt hfuel)
    rw [shuffleLoop, if_pos hend, hend]
  | succ k ih =>
    have hlt : mid < l.length := by omega
    obtain ⟨l', hstep, hperm, _⟩ :=
      shuffleLoop_step g hlt (by omega) (mulShift_lt_range (g.word_lt next) hpos)
    have hlen := hperm.length_eq
    obtain ⟨r, hr, hrun⟩ := ih (l := l') (mid + 1) (by omega) (by omega) (by omega)
      (next + 1) (by omega)
    refine ⟨r, hr.trans hperm, fun fuel hfuel => ?_⟩
    obtain ⟨fuel, rfl⟩ := Nat.exists_eq_succ_of_ne_zero (Nat.ne_of_gt (Nat.zero_lt_of_lt hfuel))
    rw [hstep, hrun fuel (by omega), hlen]

/-- Every run ends with a permutation. -/
theorem shuffle_rng32_returns (g : WordStream 32) (l : List α)
    (hmax : (l.length : Int) ≤ diffMax + 1) :
    ∃ r, Returns (shuffle g l) (r, l.length) ∧ r.Perm l := by
  by_cases hzero : l.length = 0
  · refine ⟨l, ⟨0, fun fuel _ => ?_⟩, .refl l⟩
    rw [shuffle, if_pos hzero, hzero]
  · obtain ⟨r, hperm, hrun⟩ := shuffleLoop_rng32 g 1 Nat.one_pos (Nat.pos_of_ne_zero hzero) hmax 0
    refine ⟨r, ⟨l.length - 1 + 1, fun fuel hfuel => ?_⟩, hperm⟩
    rw [shuffle, if_neg hzero, hrun fuel hfuel]

/-! ## The contract -/

/-- On lists of this length every run ends with a permutation, all swaps being inside the
range, and every permutation is the result of a run. -/
structure Shuffles (tag : RngTag) (length : Nat) : Prop where
  permutes : ∀ {α : Type} (l : List α), l.length = length → ∀ g : WordStream tag.bits,
    ∃ r, Returns (shuffle g l) (r, length) ∧ r.Perm l
  covers : ∀ {α : Type} (l : List α), l.length = length → ∀ σ : Equiv.Perm (Fin l.length),
    ∃ g : WordStream tag.bits, Returns (shuffle g l) (List.ofFn fun k => l.get (σ k), length)

theorem shuffle_short (tag : RngTag) {length : Nat} (h : length ≤ 1) : Shuffles tag length := by
  have hrun : ∀ {α : Type} (l : List α), l.length = length → ∀ g : WordStream tag.bits,
      Returns (shuffle g l) (l, length) := by
    intro α l hl g
    refine .of_forall 1 fun fuel => ?_
    rw [shuffle, Nat.add_comm]
    split
    · next hzero => rw [← hl, hzero]
    · rw [shuffleLoop, if_pos (by omega)]
      have hone : length = 1 := by omega
      rw [hone]
  constructor
  · exact fun l hl g => ⟨l, hrun l hl g, .refl l⟩
  · intro α l hl σ
    have hσ : σ = Equiv.refl _ := by
      have : Subsingleton (Fin l.length) := Fin.subsingleton_iff_le_one.mpr (hl ▸ h)
      exact Subsingleton.elim _ _
    have hsame : (List.ofFn fun k => l.get (σ k)) = l := by
      rw [hσ]
      exact List.ofFn_get l
    refine ⟨.const 0 (Nat.two_pow_pos _), ?_⟩
    rw [hsame]
    exact hrun l hl _

/-- The positions `0` and `1` are never exchanged. -/
theorem shuffle_rng32_never {length : Nat} (h : 1 < length) : ¬ Shuffles .rng32 length := by
  intro hcontract
  have hlen : (List.range length).length = length := List.length_range
  have h0 : 0 < (List.range length).length := by omega
  have h1 : 1 < (List.range length).length := by omega
  obtain ⟨g, bound, hrun⟩ := hcontract.covers (List.range length) hlen (Equiv.swap ⟨0, h0⟩ ⟨1, h1⟩)
  have hbound := hrun bound (Nat.le_refl _)
  rw [shuffle, if_neg (Nat.ne_of_gt h0)] at hbound
  have hfirst := shuffleLoop_first Nat.one_pos (Nat.le_of_lt h1) hbound
  rw [List.getElem?_eq_getElem h0, List.getElem?_eq_getElem (by rwa [List.length_ofFn]),
    List.getElem_ofFn, Equiv.swap_apply_left] at hfirst
  simp at hfirst

/-- The largest word sends the first partner in front of the range. -/
theorem shuffle_rng64_never {length : Nat} (h : 1 < length) : ¬ Shuffles .rng64 length := by
  intro hcontract
  have hword : 0xffffffffffffffff < 2 ^ RngTag.bits .rng64 := by decide
  obtain ⟨r, ⟨bound, hrun⟩, _⟩ :=
    hcontract.permutes (List.replicate length ()) List.length_replicate (.const _ hword)
  have hbound := hrun (bound + 1) (Nat.le_succ bound)
  have hlen : (List.replicate length ()).length = length := List.length_replicate
  rw [shuffle, if_neg (by omega), shuffleLoop_turn _ (by omega) (by decide),
    WordStream.const_word, swapBack_fault (by decide)] at hbound
  cases hbound

/-- `shuffle` keeps its contract on lists of at most one element only. -/
theorem shuffle_iff (tag : RngTag) (length : Nat) : Shuffles tag length ↔ length ≤ 1 := by
  constructor
  · intro h
    by_contra hlong
    cases tag with
    | rng32 => exact shuffle_rng32_never (Nat.not_le.mp hlong) h
    | rng64 => exact shuffle_rng64_never (Nat.not_le.mp hlong) h
  · exact shuffle_short tag

/-- Two elements, the default generator with pointers of eight bytes. -/
theorem shuffle_pair_overruns :
    ¬ ∀ length, Shuffles (defaultUrng 8 8) length := by
  intro h
  exact shuffle_rng64_never (by decide) (h 2)

end EARanges.Algorithm
