import EARanges.Iterator.DifferenceT
import EARanges.Support.Words

/-!
# Bounded random draws

EASTL/random.h (`uniform_int_distribution::operator()`), EASTL/random_number_generator.h
(`RNG`) and internal/random/pcg_extras.hpp (`bounded_rand`). The state of a generator is
the index of its next word. The distribution scales one word to the width `b - a` of the
interval, not to the number of its values, and does not shift the result by `a`.
-/
namespace EARanges.Random
open EARanges.Support EARanges.Iterator

/-- The integer types other than `bool`. -/
inductive IntType where
  | int8 | uint8 | int16 | uint16 | int32 | uint32 | int64 | uint64
  deriving DecidableEq, Repr

namespace IntType

def bits : IntType → Nat
  | int8 | uint8 => 8
  | int16 | uint16 => 16
  | int32 | uint32 => 32
  | int64 | uint64 => 64

def min : IntType → Int
  | int8 => -0x80
  | int16 => -0x8000
  | int32 => -0x80000000
  | int64 => -0x8000000000000000
  | uint8 | uint16 | uint32 | uint64 => 0

def max : IntType → Int
  | int8 => 0x7f
  | uint8 => 0xff
  | int16 => 0x7fff
  | uint16 => 0xffff
  | int32 => 0x7fffffff
  | uint32 => 0xffffffff
  | int64 => 0x7fffffffffffffff
  | uint64 => 0xffffffffffffffff

/-- `x - y` in the promoted type. -/
def difference : IntType → Int → Int → Exec Int
  | uint32, x, y => .ok ((x - y) % 0x100000000)
  | uint64, x, y => .ok ((x - y) % 0x10000000000000000)
  | int64, x, y => signed (x - y)
  -- `int`, to which the narrower types are promoted
  | _, x, y => if -0x80000000 ≤ x - y ∧ x - y ≤ 0x7fffffff then .ok (x - y) else .error .fault

/-- The value of the type that an unsigned number is converted to. -/
def convert (T : IntType) (n : Nat) : Int := T.min + (n - T.min) % 2 ^ T.bits

end IntType

/-- `param_type`, with the assertion of its constructor. -/
structure ParamType (T : IntType) where
  a : Int
  b : Int
  min_le : T.min ≤ a
  le : a ≤ b
  le_max : b ≤ T.max

/-- `while(l < t)`: another word is drawn. -/
def redraw {bits : Nat} (g : WordStream bits) (range t : Nat) :
    Nat → Nat → Nat → Exec (Nat × Nat)
  | 0, _, _ => .error .fuel
  | fuel + 1, m, next =>
    if m % 0x100000000 < t then
      redraw g range t fuel (g.word next * range % 0x10000000000000000) (next + 1)
    else .ok (m, next)

/-- `uniform_int_distribution::operator()(g, params)`: the number drawn and the state of the
generator. -/
def draw {bits : Nat} {T : IntType} (g : WordStream bits) (params : ParamType T) (fuel next : Nat) :
    Exec (Int × Nat) := do
  let width ← T.difference params.b params.a
  let range := unsigned width
  let x := g.word next
  let m := x * range % 0x10000000000000000
  let l := m % 0x100000000
  let (m, next) ←
    if l < range then
      let t := range
      let t :=
        if t ≥ range then (if t - range ≥ range then (t - range) % range else t - range) else t
      redraw g range t fuel m (next + 1)
    else .ok (m, next + 1)
  .ok (T.convert (m / 0x100000000), next)

/-! ## What a draw returns -/

namespace IntType

/-- The largest value of the promoted type. -/
def promotedMax : IntType → Int
  | uint32 => 0xffffffff
  | uint64 => 0xffffffffffffffff
  | int64 => diffMax
  | _ => 0x7fffffff

/-- The width of an interval is computed unless it leaves the promoted type. -/
theorem difference_eq {T : IntType} (params : ParamType T) :
    T.difference params.b params.a =
      if params.b - params.a ≤ T.promotedMax then .ok (params.b - params.a)
      else .error .fault := by
  obtain ⟨a, b, hmin, hle, hmax⟩ := params
  dsimp only
  by_cases hwidth : b - a ≤ T.promotedMax
  · rw [if_pos hwidth]
    cases T with
    | int64 => exact signed_ok (diffMin_le (by unfold diffMax; omega)) hwidth
    | uint32 | uint64 =>
      simp only [promotedMax] at hwidth
      simp only [difference, Except.ok.injEq]
      omega
    | int8 | uint8 | int16 | uint16 | int32 => exact if_pos ⟨by omega, hwidth⟩
  · rw [if_neg hwidth]
    cases T with
    | int64 => exact signed_fault (Int.not_le.mp hwidth)
    | uint32 | uint64 =>
      simp only [promotedMax, min, max] at hwidth hmin hmax
      omega
    | int8 | uint8 | int16 | uint16 | int32 => exact if_neg fun hin => hwidth hin.2

theorem convert_mem (T : IntType) (n : Nat) : T.min ≤ T.convert n ∧ T.convert n ≤ T.max := by
  cases T <;> simp only [convert, min, max, bits] <;> omega

theorem convert_of_le {T : IntType} {n : Nat} (h : (n : Int) ≤ T.max) : T.convert n = n := by
  cases T <;> simp only [convert, min, max, bits] at h ⊢ <;> omega

/-- Every value of the type is converted from its residue. -/
theorem convert_residue {T : IntType} {v : Int} (hmin : T.min ≤ v) (hmax : v ≤ T.max) :
    T.convert (v % 2 ^ T.bits).toNat = v := by
  cases T <;> simp only [convert, min, max, bits] at hmin hmax ⊢ <;> omega

theorem min_le_max (T : IntType) : T.min ≤ T.max := by
  cases T <;> decide

theorem residue_lt {T : IntType} (h : T.bits ≤ 32) (v : Int) :
    (v % 2 ^ T.bits).toNat < 0x100000000 := by
  cases T <;> simp only [bits] at h ⊢ <;> omega

theorem le_max_of_bits {T : IntType} (h : ¬ T.bits ≤ 32) : ((0xffffffff : Nat) : Int) ≤ T.max := by
  cases T <;> simp only [bits, max] at h ⊢ <;> omega

theorem bits_le_of_width {T : IntType} (h : T.max - T.min < 0xffffffff) : T.bits ≤ 16 := by
  cases T <;> simp only [bits, min, max] at h ⊢ <;> omega

theorem width_le_promotedMax {T : IntType} (h : T.bits ≤ 16) : T.max - T.min ≤ T.promotedMax := by
  cases T <;> simp only [bits, min, max, promotedMax] at h ⊢ <;> omega

theorem width_pos {T : IntType} (h : T.bits ≤ 16) :
    0 < unsigned (T.max - T.min) ∧ unsigned (T.max - T.min) < 0x100000000 := by
  cases T <;> simp only [bits, min, max, unsigned] at h ⊢ <;> omega

/-- Only the largest residue is converted to `-1`. -/
theorem le_of_convert_neg_one {T : IntType} {n : Nat} (h : T.convert n = -1) :
    T.max - T.min ≤ n := by
  cases T <;> simp only [convert, min, max, bits] at h ⊢ <;> omega

end IntType

/-- The threshold is zero: the first word is never rejected. -/
theorem draw_eq {bits : Nat} {T : IntType} (g : WordStream bits) (params : ParamType T)
    {width : Int} (hwidth : T.difference params.b params.a = .ok width) (fuel next : Nat) :
    draw g params (fuel + 1) next =
      .ok (T.convert (mulShift (g.word next) (unsigned width)), next + 1) := by
  unfold draw
  rw [hwidth, exec_bind_ok]
  dsimp only
  split
  · next hlt =>
    have ht : ¬ unsigned width - unsigned width ≥ unsigned width := by omega
    rw [if_pos (Nat.le_refl _), if_neg ht, Nat.sub_self, redraw, if_neg (Nat.not_lt_zero _)]
    rfl
  · rfl

theorem draw_returns {bits : Nat} {T : IntType} (g : WordStream bits) (params : ParamType T)
    {width : Int} (hwidth : T.difference params.b params.a = .ok width) (next : Nat) :
    Returns (fun fuel => draw g params fuel next)
      (T.convert (mulShift (g.word next) (unsigned width)), next + 1) :=
  .of_forall 1 fun fuel => by
    rw [Nat.add_comm]
    exact draw_eq g params hwidth fuel next

theorem draw_fault {bits : Nat} {T : IntType} (g : WordStream bits) (params : ParamType T)
    (hwidth : T.difference params.b params.a = .error .fault) (fuel next : Nat) :
    draw g params fuel next = .error .fault := by
  unfold draw
  rw [hwidth, exec_bind_error]

/-- `param_type{0, n}` for 64-bit differences. -/
def ParamType.upTo (n : Int) (hpos : 0 ≤ n) (hmax : n ≤ diffMax) : ParamType .int64 where
  a := 0
  b := n
  min_le := by decide
  le := hpos
  le_max := hmax

/-- `dist(gen, param_type{0, n})`. -/
def drawUpTo {bits : Nat} (g : WordStream bits) (n : Int) (fuel next : Nat) : Exec (Int × Nat) :=
  if h : 0 ≤ n ∧ n ≤ diffMax then draw g (.upTo n h.1 h.2) fuel next else .error .fault

theorem drawUpTo_eq {bits : Nat} (g : WordStream bits) {n : Nat} (hmax : (n : Int) ≤ diffMax)
    (fuel next : Nat) :
    drawUpTo g n (fuel + 1) next = .ok ((mulShift (g.word next) n : Nat), next + 1) := by
  have hpos : 0 ≤ (n : Int) := Int.natCast_nonneg n
  have hdiff : IntType.int64.difference (ParamType.upTo n hpos hmax).b
      (ParamType.upTo n hpos hmax).a = .ok n := by
    have hwidth : (n : Int) - 0 ≤ IntType.int64.promotedMax := by
      rw [Int.sub_zero]
      exact hmax
    rw [IntType.difference_eq]
    exact (if_pos hwidth).trans (congrArg Except.ok (Int.sub_zero _))
  have hunsigned : unsigned n = n := by
    unfold diffMax at hmax
    exact unsigned_natCast (by omega)
  have hconvert : IntType.int64.convert (mulShift (g.word next) n) = mulShift (g.word next) n := by
    have hlt := mulShift_lt (g.word next) n
    apply IntType.convert_of_le
    simp only [IntType.max]
    omega
  rw [drawUpTo, dif_pos ⟨hpos, hmax⟩, draw_eq g _ hdiff, hunsigned, hconvert]

/-! ## The contract of the distribution -/

/-- `RNG32Tag` and `RNG64Tag`. -/
inductive RngTag where
  | rng32 | rng64
  deriving DecidableEq, Repr

/-- The bits of `result_type`. -/
def RngTag.bits : RngTag → Nat
  | .rng32 => 32
  | .rng64 => 64

/-- `default_URNG`, by the sizes of a pointer and of `long long`. -/
def defaultUrng (pointer longLong : Nat) : RngTag := if pointer ≥ longLong then .rng64 else .rng32

/-- Every draw ends in the closed interval, and every value of it is drawn. -/
structure DrawsFrom (tag : RngTag) {T : IntType} (params : ParamType T) : Prop where
  bounds : ∀ g : WordStream tag.bits, ∃ v next,
    Returns (fun fuel => draw g params fuel 0) (v, next) ∧ params.a ≤ v ∧ v ≤ params.b
  covers : ∀ v, params.a ≤ v → v ≤ params.b → ∃ (g : WordStream tag.bits) (next : Nat),
    Returns (fun fuel => draw g params fuel 0) (v, next)

/-- The intervals that the distribution draws from: `[0, 0]`, and with words of 64 bits
the whole of a type of at most 16 bits. -/
def Drawable (tag : RngTag) {T : IntType} (params : ParamType T) : Prop :=
  params.a = 0 ∧ params.b = 0 ∨
    tag = .rng64 ∧ T.bits ≤ 16 ∧ params.a = T.min ∧ params.b = T.max

section
variable {tag : RngTag} {T : IntType} {params : ParamType T}

theorem DrawsFrom.difference (h : DrawsFrom tag params) :
    T.difference params.b params.a = .ok (params.b - params.a) := by
  have hdiff := T.difference_eq params
  split at hdiff
  · exact hdiff
  · obtain ⟨v, next, ⟨bound, hrun⟩, _⟩ := h.bounds (.const 0 (Nat.two_pow_pos _))
    have hbound := hrun bound (Nat.le_refl _)
    dsimp only at hbound
    rw [draw_fault _ params hdiff] at hbound
    cases hbound

/-- A word is drawn as its upper half, converted. -/
theorem DrawsFrom.bounds_word (h : DrawsFrom tag params) {x : Nat} (hx : x < 2 ^ tag.bits) :
    params.a ≤ T.convert (mulShift x (unsigned (params.b - params.a))) ∧
      T.convert (mulShift x (unsigned (params.b - params.a))) ≤ params.b := by
  obtain ⟨v, next, hrun, hv⟩ := h.bounds (.const x hx)
  have hdraw := draw_returns (.const x hx) params h.difference 0
  obtain ⟨rfl, _⟩ := Prod.mk.inj (hrun.unique hdraw)
  exact hv

theorem DrawsFrom.covers_word (h : DrawsFrom tag params) {v : Int} (ha : params.a ≤ v)
    (hb : v ≤ params.b) :
    ∃ x, x < 2 ^ tag.bits ∧ T.convert (mulShift x (unsigned (params.b - params.a))) = v := by
  obtain ⟨g, next, hrun⟩ := h.covers v ha hb
  have hdraw := draw_returns g params h.difference 0
  exact ⟨g.word 0, g.word_lt 0, (Prod.mk.inj (hdraw.unique hrun)).1⟩

/-- The word `0` is drawn as `0`. -/
theorem DrawsFrom.mem_zero (h : DrawsFrom tag params) : params.a ≤ 0 ∧ 0 ≤ params.b := by
  have hzero : T.convert 0 = 0 := IntType.convert_of_le (by cases T <;> decide)
  have hword := h.bounds_word (Nat.two_pow_pos tag.bits)
  rwa [mulShift_zero_left, hzero] at hword

theorem unsigned_width (hwidth : params.b - params.a < 0xffffffff) :
    (unsigned (params.b - params.a) : Int) = params.b - params.a := by
  have hle := params.le
  unfold unsigned
  omega

/-- Words of 32 bits never reach the last of the values. -/
theorem DrawsFrom.rng32 {params : ParamType T} (h : DrawsFrom .rng32 params)
    (hwidth : params.b - params.a < 0xffffffff) : params.a = 0 ∧ params.b = 0 := by
  have hzero := h.mem_zero
  have hrange := unsigned_width hwidth
  have hbelow : ∀ x, x < 2 ^ RngTag.bits .rng32 → 0 < unsigned (params.b - params.a) →
      mulShift x (unsigned (params.b - params.a)) < unsigned (params.b - params.a) :=
    fun x hx hpos => mulShift_lt_range hx hpos
  have hmin := params.min_le
  have hmax := params.le_max
  by_contra hne
  have hpos : 0 < unsigned (params.b - params.a) := by omega
  by_cases ha : params.a < 0
  · obtain ⟨x, hx, hv⟩ := h.covers_word (v := -1) (by omega) (by omega)
    have hlt := hbelow x hx hpos
    have hle := IntType.le_of_convert_neg_one hv
    omega
  · obtain ⟨x, hx, hv⟩ := h.covers_word (v := params.b) params.le (Int.le_refl _)
    have hlt := hbelow x hx hpos
    rw [IntType.convert_of_le (by omega)] at hv
    omega

/-- Words of 64 bits reach every value of the lower half. -/
theorem DrawsFrom.rng64 {params : ParamType T} (h : DrawsFrom .rng64 params)
    (hwidth : params.b - params.a < 0xffffffff) : Drawable .rng64 params := by
  have hzero := h.mem_zero
  have hrange := unsigned_width hwidth
  by_cases hpos : 0 < unsigned (params.b - params.a)
  · have hall : ∀ u, u < 0x100000000 → params.a ≤ T.convert u ∧ T.convert u ≤ params.b := by
      intro u hu
      obtain ⟨x, hx, hu⟩ := exists_mulShift hu hpos (by omega)
      have hword := h.bounds_word (x := x) hx
      rwa [hu] at hword
    have hmin := params.min_le
    have hmax := params.le_max
    by_cases hbits : T.bits ≤ 32
    · have hlow := hall _ (IntType.residue_lt hbits T.min)
      have hhigh := hall _ (IntType.residue_lt hbits T.max)
      rw [IntType.convert_residue (Int.le_refl _) T.min_le_max] at hlow
      rw [IntType.convert_residue T.min_le_max (Int.le_refl _)] at hhigh
      have ha : params.a = T.min := by omega
      have hb : params.b = T.max := by omega
      rw [ha, hb] at hwidth
      exact .inr ⟨rfl, IntType.bits_le_of_width hwidth, ha, hb⟩
    · -- the last value of the lower half is a value of the type
      have hlast := hall 0xffffffff (by decide)
      rw [IntType.convert_of_le (IntType.le_max_of_bits hbits)] at hlast
      omega
  · left
    omega

/-- `[0, 0]`: every word is scaled to `0`. -/
theorem drawsFrom_zero (ha : params.a = 0) (hb : params.b = 0) : DrawsFrom tag params := by
  have hdiff : T.difference params.b params.a = .ok 0 := by
    rw [T.difference_eq params, ha, hb, if_pos (by cases T <;> decide)]
    rfl
  have hzero : T.convert 0 = 0 := IntType.convert_of_le (by cases T <;> decide)
  have hdraw : ∀ g : WordStream tag.bits, Returns (fun fuel => draw g params fuel 0) (0, 1) := by
    intro g
    have hrun := draw_returns g params hdiff 0
    rwa [show unsigned 0 = 0 from rfl, mulShift_zero_right, hzero] at hrun
  constructor
  · exact fun g => ⟨0, 1, hdraw g, by omega, by omega⟩
  · intro v hv hv'
    obtain rfl : v = 0 := by omega
    exact ⟨.const 0 (Nat.two_pow_pos _), 1, hdraw _⟩

/-- The whole of a small type: the conversion is onto. -/
theorem drawsFrom_whole {params : ParamType T} (hbits : T.bits ≤ 16) (ha : params.a = T.min)
    (hb : params.b = T.max) : DrawsFrom .rng64 params := by
  have hdiff : T.difference params.b params.a = .ok (T.max - T.min) := by
    rw [T.difference_eq params, ha, hb, if_pos (IntType.width_le_promotedMax hbits)]
  have hrange : 0 < unsigned (T.max - T.min) ∧ unsigned (T.max - T.min) < 0x100000000 :=
    IntType.width_pos hbits
  constructor
  · intro g
    refine ⟨_, _, draw_returns g params hdiff 0, ?_⟩
    rw [ha, hb]
    exact T.convert_mem _
  · intro v hv hv'
    rw [ha] at hv
    rw [hb] at hv'
    obtain ⟨x, hx, hu⟩ :=
      exists_mulShift (IntType.residue_lt (Nat.le_trans hbits (by decide)) v) hrange.1 hrange.2
    have hx' : x < 2 ^ RngTag.bits .rng64 := hx
    have hrun := draw_returns (.const x hx') params hdiff 0
    rw [WordStream.const_word, hu, IntType.convert_residue hv hv'] at hrun
    exact ⟨_, _, hrun⟩

theorem drawsFrom_iff (hwidth : params.b - params.a < 0xffffffff) :
    DrawsFrom tag params ↔ Drawable tag params := by
  constructor
  · intro h
    cases tag with
    | rng32 => exact .inl (h.rng32 hwidth)
    | rng64 => exact h.rng64 hwidth
  · intro h
    obtain ⟨ha, hb⟩ | ⟨rfl, hbits, ha, hb⟩ := h
    · exact drawsFrom_zero ha hb
    · exact drawsFrom_whole hbits ha hb

end

/-! ## `RNG::operator()(lower_bound, upper_bound)` -/

/-- `bounded_rand`: the number drawn and the state of the generator. -/
def boundedRand {bits : Nat} (g : WordStream bits) (upperBound : Nat) :
    Nat → Nat → Exec (Nat × Nat)
  | 0, _ => .error .fuel
  | fuel + 1, next =>
    -- `%` by zero
    if upperBound = 0 then .error .fault
    else
      let threshold := (2 ^ bits - upperBound) % 2 ^ bits % upperBound
      let r := g.word next
      if r ≥ threshold then .ok (r % upperBound, next + 1)
      else boundedRand g upperBound fuel (next + 1)

/-- `RNG::operator()(lower_bound, upper_bound)`, in the arithmetic of `result_type`. -/
def rngBetween {bits : Nat} (g : WordStream bits) (lowerBound upperBound fuel next : Nat) :
    Exec (Nat × Nat) := do
  let (r, next) ← boundedRand g ((upperBound + 2 ^ bits - lowerBound + 1) % 2 ^ bits) fuel next
  .ok ((r + lowerBound) % 2 ^ bits, next)

/-- "It generates a random number n such that lower_bound <= n < upper_bound", whenever it
ends. -/
def RngBetweenContract (bits lowerBound upperBound : Nat) : Prop :=
  ∀ g : WordStream bits, Diverges (fun fuel => rngBetween g lowerBound upperBound fuel 0) ∨
    ∃ n next, Returns (fun fuel => rngBetween g lowerBound upperBound fuel 0) (n, next) ∧
      lowerBound ≤ n ∧ n < upperBound

/-- `bounded_rand` keeps its bound. -/
theorem boundedRand_lt {bits : Nat} {g : WordStream bits} {upperBound fuel next r next' : Nat}
    (h : boundedRand g upperBound fuel next = .ok (r, next')) : r < upperBound := by
  induction fuel generalizing next with
  | zero => cases h
  | succ fuel ih =>
    rw [boundedRand] at h
    split at h
    · cases h
    · next hzero =>
      dsimp only at h
      split at h
      · obtain ⟨rfl, _⟩ := Prod.mk.inj (Except.ok.inj h)
        exact Nat.mod_lt _ (Nat.pos_of_ne_zero hzero)
      · exact ih h

/-- The last number below the bound is drawn from the word that is this number. -/
theorem boundedRand_last {bits upperBound : Nat} (hpos : 0 < upperBound)
    (hlt : upperBound - 1 < 2 ^ bits) (fuel next : Nat) :
    boundedRand (.const (upperBound - 1) hlt) upperBound (fuel + 1) next =
      .ok (upperBound - 1, next + 1) := by
  have hthreshold := Nat.mod_lt ((2 ^ bits - upperBound) % 2 ^ bits) hpos
  rw [boundedRand, if_neg (Nat.ne_of_gt hpos)]
  dsimp only
  rw [WordStream.const_word, if_pos (by omega), Nat.mod_eq_of_lt (by omega)]

/-- The interval drawn from has one value too many; that of the whole type has none. -/
theorem rngBetween_never {bits lowerBound upperBound : Nat} (hlt : lowerBound < upperBound)
    (hupper : upperBound < 2 ^ bits) : ¬ RngBetweenContract bits lowerBound upperBound := by
  intro hcontract
  by_cases hwhole : upperBound - lowerBound + 1 = 2 ^ bits
  · have hcount : (upperBound + 2 ^ bits - lowerBound + 1) % 2 ^ bits = 0 := by
      have hsum : upperBound + 2 ^ bits - lowerBound + 1 = 2 ^ bits * 2 := by omega
      rw [hsum, Nat.mul_mod_right]
    have hfault : ∀ (g : WordStream bits) fuel,
        rngBetween g lowerBound upperBound (fuel + 1) 0 = .error .fault := by
      intro g fuel
      rw [rngBetween, hcount, boundedRand, if_pos rfl]
      rfl
    rcases hcontract (.const 0 (Nat.two_pow_pos bits)) with hdiv | ⟨n, next, ⟨bound, hrun⟩, _⟩
    · have hone := hdiv 1
      dsimp only at hone
      rw [hfault] at hone
      cases hone
    · have hbound := hrun (bound + 1) (Nat.le_succ bound)
      dsimp only at hbound
      rw [hfault] at hbound
      cases hbound
  · have hcount : (upperBound + 2 ^ bits - lowerBound + 1) % 2 ^ bits =
        upperBound - lowerBound + 1 := by
      have hsum : upperBound + 2 ^ bits - lowerBound + 1 =
          2 ^ bits + (upperBound - lowerBound + 1) := by omega
      rw [hsum, Nat.add_mod_left, Nat.mod_eq_of_lt (by omega)]
    have hword : upperBound - lowerBound + 1 - 1 < 2 ^ bits := by omega
    have hlast : ∀ fuel,
        rngBetween (.const _ hword) lowerBound upperBound (fuel + 1) 0 = .ok (upperBound, 1) := by
      intro fuel
      rw [rngBetween, hcount, boundedRand_last (Nat.succ_pos _) hword, exec_bind_ok]
      dsimp only
      have hsum : (upperBound - lowerBound).succ - 1 + lowerBound = upperBound := by omega
      rw [hsum, Nat.mod_eq_of_lt hupper]
    rcases hcontract (.const _ hword) with hdiv | ⟨n, next, ⟨bound, hrun⟩, _, hn⟩
    · have hone := hdiv 1
      dsimp only at hone
      rw [hlast] at hone
      cases hone
    · have hbound := hrun (bound + 1) (Nat.le_succ bound)
      dsimp only at hbound
      rw [hlast] at hbound
      cases hbound
      exact Nat.lt_irrefl _ hn

/-! ## Bounded draws -/

/-- The distribution draws from exactly the `Drawable` intervals, and `RNG` never keeps
the bound of its comment. -/
theorem boundedDraws_iff (tag : RngTag) :
    (∀ (T : IntType) (params : ParamType T), params.b - params.a < 0xffffffff →
      (DrawsFrom tag params ↔ Drawable tag params)) ∧
    ∀ lowerBound upperBound, lowerBound < upperBound → upperBound < 2 ^ tag.bits →
      ¬ RngBetweenContract tag.bits lowerBound upperBound :=
  ⟨fun _ _ hwidth => drawsFrom_iff hwidth, fun _ _ hlt hupper => rngBetween_never hlt hupper⟩

/-- The faces of a die. -/
def die : ParamType .int32 := ⟨1, 6, by decide, by decide, by decide⟩

theorem boundedDraws_iff_die : ¬ DrawsFrom .rng64 die ∧ ¬ RngBetweenContract 64 1 7 := by
  obtain ⟨hdraws, hrng⟩ := boundedDraws_iff .rng64
  refine ⟨fun h => ?_, hrng 1 7 (by decide) (by decide)⟩
  obtain ⟨ha, _⟩ | ⟨_, hbits, _⟩ := (hdraws .int32 die (by decide)).mp h
  · exact absurd ha (by decide)
  · exact absurd hbits (by decide)

/-- The default generator, with pointers of eight bytes: the word `0` is drawn as `0`. -/
theorem die_draws_zero :
    ¬ ((∀ (T : IntType) (params : ParamType T), params.b - params.a < 0xffffffff →
        DrawsFrom (defaultUrng 8 8) params) ∧
      ∀ lowerBound upperBound, lowerBound < upperBound →
        upperBound < 2 ^ (defaultUrng 8 8).bits →
        RngBetweenContract (defaultUrng 8 8).bits lowerBound upperBound) := by
  intro h
  have hzero := (h.1 .int32 die (by decide)).mem_zero
  exact absurd hzero.1 (by decide)

end EARanges.Random
