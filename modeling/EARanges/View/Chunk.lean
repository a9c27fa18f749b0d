import EARanges.Iterator.DifferenceT
import EARanges.Iterator.RangeTraits
import EARanges.Support.Numbered
import EARanges.Support.Strides

/-!
# The forward `chunk_view`

view/chunk.hpp, `chunk_view_<Rng, true>`; the chunk size `n_` is the stride of the base.
An iterator of the base is its index. The adaptor remembers by how much the last step
overshot the end; its `offset_t` is an integer only where something can use it, and
`detail::zero` elsewhere, which forgets what it is assigned. There is no `end_adaptor`,
so `end` is a sentinel. A chunk is delivered as the list of its elements.
-/
namespace EARanges.View
open EARanges.Support EARanges.Iterator

/-- The constructor expects `0 < n`; distances in the base, whose end has the index
`length`, and the chunk size fit the difference type. -/
structure ChunkView (α : Type) extends Strides where
  base : List α
  base_length : base.length = length
  stride_le : (stride : Int) ≤ diffMax
  length_le : (length : Int) ≤ diffMax
  traits : RangeTraits
  forward_base : traits.forward = true
  lang : IfConstexpr

structure ChunkCursor where
  it : Nat
  offset : Int
  deriving DecidableEq, Repr

namespace ChunkView

variable {α : Type}

/-- Whether `offset_t` is an integer. -/
def keepsOffset (v : ChunkView α) : Bool := v.traits.bidirectional || v.traits.sizedIterator

/-- `offset() = x`. -/
def assignOffset (v : ChunkView α) (x : Int) : Int := if v.keepsOffset then x else 0

/-- `offset()`. -/
def offset (v : ChunkView α) (c : ChunkCursor) : Exec Int :=
  if 0 ≤ c.offset ∧ c.offset < v.stride then .ok c.offset else .error .fault

def beginCursor : ChunkCursor := ⟨0, 0⟩

/-- All of `views::take(make_subrange(it, end_), n_)`. -/
def read (v : ChunkView α) (c : ChunkCursor) : Exec (List α) := do
  let offset ← offset v c
  if ¬ (c.it ≠ v.length ∧ 0 = offset) then .error .fault
  else .ok ((v.base.drop c.it).take v.stride)

def next (v : ChunkView α) (c : ChunkCursor) : Exec ChunkCursor := do
  let offset ← offset v c
  if ¬ (c.it ≠ v.length ∧ 0 = offset) then .error .fault
  else do
    let (it, rest) ← advanceEnd v.lang v.traits v.length c.it v.stride
    .ok ⟨it, assignOffset v rest⟩

def prev (v : ChunkView α) (c : ChunkCursor) : Exec ChunkCursor := do
  let offset ← offset v c
  let delta ← signed (-v.stride)
  let delta ← signed (delta + offset)
  let it ← advanceBy v.traits v.length c.it delta
  .ok ⟨it, 0⟩

def distanceTo (v : ChunkView α) (c that : ChunkCursor) : Exec Int := do
  let span ← signed ((that.it : Int) - c.it)
  let thatOffset ← offset v that
  let offset ← offset v c
  let overhang ← signed (thatOffset - offset)
  let delta ← signed (span + overhang)
  if ¬ 0 = delta.tmod v.stride then .error .fault
  else .ok (delta.tdiv v.stride)

def advanceForward (v : ChunkView α) (n : Int) (c : ChunkCursor) : Exec ChunkCursor := do
  let offset ← offset v c
  if ¬ 0 = offset then .error .fault
  else if ¬ n ≤ diffMax.tdiv v.stride then .error .fault
  else do
    let n ← signed (n * v.stride)
    let (it, rest) ← advanceEnd v.lang v.traits v.length c.it n
    let remainder := rest.tmod v.stride
    if ¬ (0 ≤ remainder ∧ remainder < v.stride) then .error .fault
    else .ok ⟨it, assignOffset v remainder⟩

def advanceBackward (v : ChunkView α) (n : Int) (c : ChunkCursor) : Exec ChunkCursor :=
  if ¬ n ≥ diffMin.tdiv v.stride then .error .fault
  else do
    let n ← signed (n * v.stride)
    let offset ← offset v c
    let n ← signed (n + offset)
    let it ← advanceBy v.traits v.length c.it n
    .ok ⟨it, 0⟩

def advance (v : ChunkView α) (n : Int) (c : ChunkCursor) : Exec ChunkCursor :=
  if 0 < n then advanceForward v n c
  else if 0 > n then advanceBackward v n c
  else .ok c

/-- `size_(ranges::size(base()))`. -/
def size (v : ChunkView α) : Nat :=
  v.length / v.stride + if 0 ≠ v.length % v.stride then 1 else 0

def loop (v : ChunkView α) : Loop ChunkCursor (List α) where
  start := .ok beginCursor
  atEnd c := .ok (c.it == v.length)
  read := read v
  next := next v

/-! ## What the operations do -/

/-- Cursor number `i`. Only the last can have an offset. -/
def cursorAt (v : ChunkView α) (i : Nat) : ChunkCursor :=
  ⟨v.pos i, if i = v.count then assignOffset v v.overshoot else 0⟩

theorem assignOffset_eq (v : ChunkView α) (h : v.keepsOffset = true) (x : Int) :
    assignOffset v x = x := if_pos h

theorem assignOffset_overshoot (v : ChunkView α) (i : Nat) :
    assignOffset v ((if i = v.count then v.overshoot else 0 : Nat) : Int) =
      (cursorAt v i).offset := by
  unfold cursorAt assignOffset
  split <;> split <;> rfl

theorem offset_cursorAt_of_lt (v : ChunkView α) {i : Nat} (hi : i < v.count) :
    offset v (cursorAt v i) = .ok 0 := by
  have hpos := v.stride_pos
  simp only [offset, cursorAt, if_neg (Nat.ne_of_lt hi)]
  exact if_pos (by omega)

/-- Counted with its offset, cursor `i` stands `i` chunks from the begin. -/
theorem offset_cursorAt (v : ChunkView α) (h : v.keepsOffset = true) {i : Nat} (hi : i ≤ v.count) :
    ∃ o : Int, offset v (cursorAt v i) = .ok o ∧ 0 ≤ o ∧ o < v.stride ∧
      (v.pos i : Int) + o = (i * v.stride : Nat) := by
  have hover := v.overshoot_lt
  have hpos := v.stride_pos
  have hadd := v.pos_add_overshoot hi
  simp only [offset, cursorAt, v.assignOffset_eq h]
  split at hadd
  next hlast =>
    rw [if_pos hlast]
    exact ⟨v.overshoot, if_pos (by omega), by omega, by omega, by omega⟩
  next hne =>
    rw [if_neg hne]
    exact ⟨0, if_pos (by omega), by omega, by omega, by omega⟩

theorem read_cursorAt (v : ChunkView α) {i : Nat} (hi : i < v.count) :
    read v (cursorAt v i) = .ok (block v.stride v.base i) := by
  have hlt := v.pos_lt hi
  have hit : (cursorAt v i).it = v.pos i := rfl
  rw [read, offset_cursorAt_of_lt v hi, exec_bind_ok, hit,
    if_neg (not_not.mpr ⟨Nat.ne_of_lt hlt, rfl⟩), v.pos_of_lt hi]
  rfl

/-- Where `k` chunks from cursor `i` lead, and by how much they overshoot the end. -/
theorem advanceEnd_cursorAt (v : ChunkView α) {i k : Nat} (hi : i < v.count)
    (hk : i + k ≤ v.count) :
    advanceEnd v.lang v.traits v.length (v.pos i) (k * v.stride : Nat) =
      .ok (v.pos (i + k), ((if i + k = v.count then v.overshoot else 0 : Nat) : Int)) := by
  have hmul : (i + k) * v.stride = i * v.stride + k * v.stride := Nat.add_mul _ _ _
  have hadd := v.pos_add_overshoot hk
  have hle := v.pos_le (i + k)
  rw [advanceEnd_eq (v.pos_le i), v.pos_add hi]
  have hrest : k * v.stride - min (k * v.stride) (v.length - v.pos i) =
      if i + k = v.count then v.overshoot else 0 := by
    have hlt := v.pos_lt hi
    rw [v.pos_of_lt hi] at hlt ⊢
    by_cases hlast : i + k = v.count
    · have hend : v.pos (i + k) = v.length := by rw [hlast, v.pos_count]
      rw [if_pos hlast] at hadd ⊢
      omega
    · rw [if_neg hlast] at hadd ⊢
      omega
  rw [hrest]

theorem next_cursorAt (v : ChunkView α) {i : Nat} (hi : i < v.count) :
    next v (cursorAt v i) = .ok (cursorAt v (i + 1)) := by
  have hlt := v.pos_lt hi
  have hit : (cursorAt v i).it = v.pos i := rfl
  have hstep := v.advanceEnd_cursorAt (k := 1) hi hi
  rw [Nat.one_mul] at hstep
  rw [next, offset_cursorAt_of_lt v hi, exec_bind_ok, hit,
    if_neg (not_not.mpr ⟨Nat.ne_of_lt hlt, rfl⟩), hstep, exec_bind_ok]
  exact congrArg (fun o => Except.ok (ChunkCursor.mk (v.pos (i + 1)) o))
    (v.assignOffset_overshoot (i + 1))

theorem prev_cursorAt (v : ChunkView α) (hbidi : v.traits.bidirectional = true) {i : Nat}
    (hi : i < v.count) : prev v (cursorAt v (i + 1)) = .ok (cursorAt v i) := by
  have hkeeps : v.keepsOffset = true := by rw [keepsOffset, hbidi, Bool.true_or]
  have hs := v.stride_le
  have hpos := v.stride_pos
  have hit : (cursorAt v (i + 1)).it = v.pos (i + 1) := rfl
  obtain ⟨o, hoffset, hlow, hhigh, hadd⟩ := v.offset_cursorAt hkeeps (i := i + 1) hi
  have hneg : signed (-v.stride) = .ok (-v.stride) := by
    apply signed_of_abs <;> omega
  have hsum : signed (-v.stride + o) = .ok (-v.stride + o) := by
    apply signed_of_abs <;> omega
  have hstep : (i + 1) * v.stride = v.pos i + v.stride := by rw [v.pos_of_lt hi, Nat.succ_mul]
  have hback : advanceBy v.traits v.length (v.pos (i + 1)) (-v.stride + o) = .ok (v.pos i) :=
    advanceBy_eq v.traits (v.pos_le _) (v.pos_le i) (by omega)
  rw [prev, hoffset, exec_bind_ok, hneg, exec_bind_ok, hsum, exec_bind_ok, hit, hback,
    exec_bind_ok, cursorAt, if_neg (Nat.ne_of_lt hi)]

/-! ## Jumps and distances -/

/-- So many chunks are a representable number of elements. -/
def Representable (v : ChunkView α) (n : Int) : Prop :=
  diffMin ≤ n * v.stride ∧ n * v.stride ≤ diffMax

/-- The assertions of `advance` ask for just that. -/
theorem le_tdiv_iff (v : ChunkView α) {k : Nat} :
    (k : Int) ≤ diffMax.tdiv v.stride ↔ (k : Int) * v.stride ≤ diffMax := by
  have hcast : diffMax.tdiv v.stride = (0x7fffffffffffffff / v.stride : Nat) := rfl
  have hmax : diffMax = (0x7fffffffffffffff : Nat) := rfl
  rw [hcast, hmax, ← Int.natCast_mul, Int.ofNat_le, Int.ofNat_le]
  exact Nat.le_div_iff_mul_le v.stride_pos

theorem tdiv_le_neg_iff (v : ChunkView α) {k : Nat} :
    diffMin.tdiv v.stride ≤ -k ↔ diffMin ≤ -(k : Int) * v.stride := by
  have hmin : diffMin = -(0x8000000000000000 : Nat) := rfl
  have hcast : diffMin.tdiv v.stride = -(0x8000000000000000 / v.stride : Nat) := by
    rw [hmin, Int.neg_tdiv]
    rfl
  rw [hcast, hmin, Int.neg_mul, ← Int.natCast_mul, Int.neg_le_neg_iff, Int.neg_le_neg_iff,
    Int.ofNat_le, Int.ofNat_le]
  exact Nat.le_div_iff_mul_le v.stride_pos

theorem advanceForward_cursorAt (v : ChunkView α) {i k : Nat} (hk : 0 < k)
    (hj : i + k ≤ v.count) (hfit : Representable v k) :
    advanceForward v k (cursorAt v i) = .ok (cursorAt v (i + k)) := by
  have hpos := v.stride_pos
  have hover := v.overshoot_lt
  have hcast : (k : Int) * v.stride = (k * v.stride : Nat) := (Int.natCast_mul _ _).symm
  have hrest : Int.tmod ((if i + k = v.count then v.overshoot else 0 : Nat) : Int) v.stride =
      ((if i + k = v.count then v.overshoot else 0 : Nat) : Int) := by
    rw [← Int.ofNat_tmod, Nat.mod_eq_of_lt]
    split <;> omega
  have hremainder : ¬ ¬ ((0 : Int) ≤ ((if i + k = v.count then v.overshoot else 0 : Nat) : Int) ∧
      ((if i + k = v.count then v.overshoot else 0 : Nat) : Int) < v.stride) := by
    rw [not_not]
    split <;> omega
  rw [advanceForward, offset_cursorAt_of_lt v (by omega), exec_bind_ok,
    if_neg (not_not.mpr rfl), if_neg (not_not.mpr (v.le_tdiv_iff.mpr hfit.2)),
    signed_ok hfit.1 hfit.2, exec_bind_ok, hcast, cursorAt,
    v.advanceEnd_cursorAt (by omega) hj, exec_bind_ok]
  dsimp only
  rw [hrest, if_neg hremainder]
  exact congrArg (fun o => Except.ok (ChunkCursor.mk (v.pos (i + k)) o))
    (v.assignOffset_overshoot (i + k))

theorem advanceBackward_cursorAt (v : ChunkView α) (hkeeps : v.keepsOffset = true) {j k : Nat}
    (hk : 0 < k) (hi : j + k ≤ v.count) (hfit : Representable v (-k)) :
    advanceBackward v (-k) (cursorAt v (j + k)) = .ok (cursorAt v j) := by
  have hpos := v.stride_pos
  obtain ⟨hlow, hhigh⟩ := hfit
  obtain ⟨o, hoffset, ho, hless, hadd⟩ := v.offset_cursorAt hkeeps hi
  have hmul : (j + k) * v.stride = j * v.stride + k * v.stride := Nat.add_mul _ _ _
  have hstride : v.stride ≤ k * v.stride := Nat.le_mul_of_pos_left _ hk
  have hcast : -(k : Int) * v.stride = -(k * v.stride : Nat) := by
    rw [Int.neg_mul, Int.natCast_mul]
  have hjlt : j < v.count := by omega
  have hback : advanceBy v.traits v.length (v.pos (j + k)) (-(k * v.stride : Nat) + o) =
      .ok (v.pos j) := by
    apply advanceBy_eq v.traits (v.pos_le _) (v.pos_le j)
    rw [v.pos_of_lt hjlt]
    omega
  have hit : (cursorAt v (j + k)).it = v.pos (j + k) := rfl
  have hsum : signed (-(k * v.stride : Nat) + o) = .ok (-(k * v.stride : Nat) + o) := by
    rw [hcast] at hlow
    exact signed_ok (by omega) (by unfold diffMax; omega)
  rw [advanceBackward, if_neg (not_not.mpr (v.tdiv_le_neg_iff.mpr hlow)), signed_ok hlow hhigh,
    exec_bind_ok, hoffset, exec_bind_ok, hcast, hsum, exec_bind_ok, hit, hback, exec_bind_ok,
    cursorAt, if_neg (Nat.ne_of_lt hjlt)]

theorem advance_cursorAt (v : ChunkView α) (hbidi : v.traits.bidirectional = true) {i j : Nat}
    (hi : i ≤ v.count) (hj : j ≤ v.count) (hfit : Representable v ((j : Int) - i)) :
    advance v ((j : Int) - i) (cursorAt v i) = .ok (cursorAt v j) := by
  have hkeeps : v.keepsOffset = true := by rw [keepsOffset, hbidi, Bool.true_or]
  rcases Nat.lt_trichotomy i j with hlt | rfl | hgt
  · obtain ⟨k, rfl⟩ := Nat.exists_eq_add_of_le (Nat.le_of_lt hlt)
    have hn : ((i + k : Nat) : Int) - i = k := by omega
    rw [hn] at hfit ⊢
    rw [advance, if_pos (by omega)]
    exact advanceForward_cursorAt v (by omega) hj hfit
  · rw [Int.sub_self, advance, if_neg (by omega), if_neg (by omega)]
  · obtain ⟨k, rfl⟩ := Nat.exists_eq_add_of_le (Nat.le_of_lt hgt)
    have hn : (j : Int) - (j + k : Nat) = -k := by omega
    rw [hn] at hfit ⊢
    rw [advance, if_neg (by omega), if_pos (by omega)]
    exact advanceBackward_cursorAt v hkeeps (by omega) hi hfit

theorem distanceTo_cursorAt (v : ChunkView α) (hkeeps : v.keepsOffset = true) {i j : Nat}
    (hi : i ≤ v.count) (hj : j ≤ v.count) (hfit : Representable v ((j : Int) - i)) :
    distanceTo v (cursorAt v i) (cursorAt v j) = .ok ((j : Int) - i) := by
  have hs := v.stride_le
  have hlen := v.length_le
  have hposi := v.pos_le i
  have hposj := v.pos_le j
  obtain ⟨oi, hoi, hilow, hihigh, hiadd⟩ := v.offset_cursorAt hkeeps hi
  obtain ⟨oj, hoj, hjlow, hjhigh, hjadd⟩ := v.offset_cursorAt hkeeps hj
  have hspan : signed ((v.pos j : Int) - v.pos i) = .ok ((v.pos j : Int) - v.pos i) := by
    apply signed_of_abs <;> omega
  have hover : signed (oj - oi) = .ok (oj - oi) := by
    apply signed_of_abs <;> omega
  have hdelta : (v.pos j : Int) - v.pos i + (oj - oi) = ((j : Int) - i) * v.stride := by
    rw [Int.sub_mul, ← Int.natCast_mul, ← Int.natCast_mul]
    omega
  have hne : (v.stride : Int) ≠ 0 := by have := v.stride_pos; omega
  have hj' : (cursorAt v j).it = v.pos j := rfl
  have hi' : (cursorAt v i).it = v.pos i := rfl
  rw [distanceTo, hj', hi', hspan, exec_bind_ok, hoj, exec_bind_ok, hoi, exec_bind_ok, hover,
    exec_bind_ok, hdelta, signed_ok hfit.1 hfit.2, exec_bind_ok, Int.mul_tmod_left,
    if_neg (not_not.mpr rfl), Int.mul_tdiv_cancel _ hne]

/-! ## The chunk law -/

theorem length_blocks (v : ChunkView α) : (blocks v.stride v.base).length = v.count := by
  rw [blocks, List.length_map, List.length_range, v.base_length]
  rfl

theorem blocks_getElem? (v : ChunkView α) {i : Nat} {b : List α}
    (h : (blocks v.stride v.base)[i]? = some b) :
    i < v.count ∧ b = block v.stride v.base i := by
  obtain ⟨hi, hb⟩ := List.getElem?_eq_some_iff.mp h
  rw [length_blocks] at hi
  refine ⟨hi, ?_⟩
  rw [← hb]
  simp only [blocks, List.getElem_map, List.getElem_range]

/-- The chunks are full and not empty, the last perhaps not full. -/
structure ChunkShape (n : Nat) (chunks : List (List α)) : Prop where
  full : ∀ i b, chunks[i]? = some b → i + 1 < chunks.length → b.length = n
  nonempty : ∀ b ∈ chunks, b ≠ []
  bounded : ∀ b ∈ chunks, b.length ≤ n

theorem blocks_shape (v : ChunkView α) : ChunkShape v.stride (blocks v.stride v.base) := by
  have hpos := v.stride_pos
  have hlen := v.base_length
  have hblock : ∀ b ∈ blocks v.stride v.base, b ≠ [] ∧ b.length ≤ v.stride := by
    intro b hb
    obtain ⟨i, hi⟩ := List.mem_iff_getElem?.mp hb
    obtain ⟨hlt, rfl⟩ := v.blocks_getElem? hi
    have hin := v.lt_count_iff.mp hlt
    have hlength := length_block v.stride v.base i
    exact ⟨fun hnil => by rw [hnil, List.length_nil] at hlength; omega, by omega⟩
  refine ⟨fun i b hb hnext => ?_, fun b hb => (hblock b hb).1, fun b hb => (hblock b hb).2⟩
  obtain ⟨_, rfl⟩ := v.blocks_getElem? hb
  rw [length_blocks] at hnext
  have hin := v.lt_count_iff.mp hnext
  have hmul : (i + 1) * v.stride = i * v.stride + v.stride := Nat.succ_mul _ _
  rw [length_block]
  omega

/-- The view cuts its base into chunks and can be walked and measured, for the step
counts in `inDomain`. -/
structure ChunkLaw (v : ChunkView α) (inDomain : Int → Prop) : Prop where
  forward : (loop v).Delivers (blocks v.stride v.base)
  concatenation : (blocks v.stride v.base).flatten = v.base
  shape : ChunkShape v.stride (blocks v.stride v.base)
  size_eq : size v = ceilDiv v.base.length v.stride
  prev_next : v.traits.bidirectional = true → (loop v).PrevUndoesNext (prev v) (size v)
  jumps : v.traits.randomAccess = true →
    (loop v).JumpsAreSteps (prev v) (advance v) (size v) inDomain
  distances : v.traits.sizedIterator = true →
    (loop v).DistancesAreSteps (distanceTo v) (size v) inDomain

theorem size_eq_count (v : ChunkView α) : size v = v.count := by
  rw [size, Strides.count, ceilDiv_eq v.stride_pos]
  split <;> split <;> omega

/-- The cursors numbered `i`. -/
def At (v : ChunkView α) (i : Nat) (c : ChunkCursor) : Prop :=
  i ≤ v.count ∧ c = cursorAt v i

theorem At.unique {v : ChunkView α} (i : Nat) (c c' : ChunkCursor) (h : At v i c)
    (h' : At v i c') : c = c' := h.2.trans h'.2.symm

theorem cursorAt_zero (v : ChunkView α) : cursorAt v 0 = beginCursor := by
  have hover : (if 0 = v.count then v.overshoot else 0) = 0 := by
    unfold Strides.overshoot
    split
    next h => rw [← h, Nat.zero_mul, Nat.zero_sub]
    next => rfl
  have hoffset : (cursorAt v 0).offset = 0 := by
    rw [← v.assignOffset_overshoot, hover]
    exact ite_self 0
  have hit : (cursorAt v 0).it = 0 := v.pos_zero
  exact congrArg₂ ChunkCursor.mk hit hoffset

theorem loop_numbers (v : ChunkView α) :
    (loop v).Numbers (blocks v.stride v.base) (At v) := by
  refine ⟨⟨?_, ?_⟩, ?_, ?_⟩
  · exact ⟨beginCursor, rfl, Nat.zero_le _, v.cursorAt_zero.symm⟩
  · rintro i _ ⟨_, rfl⟩ hi
    rw [length_blocks] at hi
    exact ⟨_, next_cursorAt v hi, hi, rfl⟩
  · rintro i _ ⟨hi, rfl⟩
    rw [length_blocks]
    apply congrArg Except.ok
    rw [Bool.eq_iff_iff, beq_iff_eq, decide_eq_true_eq]
    exact v.pos_eq_length_iff hi
  · rintro i _ b ⟨_, rfl⟩ hb
    obtain ⟨hi, rfl⟩ := v.blocks_getElem? hb
    exact read_cursorAt v hi

/-- Any chunk view can be walked; jumps and distances are right for numbers of chunks
whose elements the difference type can count. -/
theorem chunkView_law (v : ChunkView α) : ChunkLaw v v.Representable := by
  have hsize : size v = (blocks v.stride v.base).length := by rw [size_eq_count, length_blocks]
  have hnumbers := v.loop_numbers
  have hnumbering : (loop v).Numbering (size v) (At v) := by
    rw [hsize]
    exact hnumbers.toNumbering
  have hprev : v.traits.bidirectional = true → ∀ i c, At v (i + 1) c → i < size v →
      ∃ c', prev v c = .ok c' ∧ At v i c' := by
    rintro hbidi i _ ⟨hi, rfl⟩ _
    exact ⟨_, prev_cursorAt v hbidi hi, Nat.le_of_lt hi, rfl⟩
  refine ⟨hnumbers.delivers, blocks_flatten v.stride_pos v.base, v.blocks_shape, ?_, ?_, ?_, ?_⟩
  · rw [size_eq_count, v.base_length]
    rfl
  · exact fun hbidi => hnumbering.prevUndoesNext At.unique (hprev hbidi)
  · intro hra
    have hbidi : v.traits.bidirectional = true := v.traits.bidirectional_of_randomAccess hra
    apply hnumbering.jumpsAreSteps At.unique (hprev hbidi)
    rintro i j _ ⟨hi, rfl⟩ _ hj hfit
    rw [size_eq_count] at hj
    exact ⟨_, advance_cursorAt v hbidi hi hj hfit, hj, rfl⟩
  · intro hsized
    have hkeeps : v.keepsOffset = true := by rw [keepsOffset, hsized, Bool.or_true]
    apply hnumbering.distancesAreSteps
    rintro i j _ _ ⟨hi, rfl⟩ ⟨hj, rfl⟩ _ _ hfit
    exact distanceTo_cursorAt v hkeeps hi hj hfit

/-- `2 ^ 62 + 2` equal elements in chunks of `2 ^ 62 + 1`. -/
def hugeChunks : ChunkView Nat where
  length := 0x4000000000000002
  stride := 0x4000000000000001
  stride_pos := Nat.succ_pos _
  base := List.replicate 0x4000000000000002 0
  base_length := List.length_replicate
  stride_le := by decide
  length_le := by decide
  traits := .ofArray
  forward_base := rfl
  lang := .cxx17

/-- Two steps lead from the begin to the end, but the jump asserts that two chunks are a
representable number of elements. -/
theorem hugeChunks_asserts : size hugeChunks = 2 ∧
    advance hugeChunks 2 beginCursor = .error .fault ∧
    ¬ ChunkLaw hugeChunks fun _ => True := by
  refine ⟨by decide, rfl, fun law => ?_⟩
  obtain ⟨s, s', hbegin, _, hadvance, _⟩ := law.jumps rfl 0 (by decide) 2 (by decide) trivial
  cases hbegin
  cases hadvance

end ChunkView

end EARanges.View
