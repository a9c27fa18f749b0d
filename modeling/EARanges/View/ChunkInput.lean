import EARanges.Support.Exec
import EARanges.Support.Blocks

/-!
# The single-pass `chunk_view`

view/chunk.hpp, `chunk_view_<Rng, false>`. The base is an input range, so the view
itself holds the one iterator (`it_cache_`, an index here) and the counter
`remainder_`; the outer cursor and every inner view are pointers to it. A state is
that pair, and the elements and the chunk size stay fixed.
-/
namespace EARanges.View
open EARanges.Support

/-- The constructor expects `0 < n`. -/
structure ChunkInputView (α : Type) where
  base : List α
  n : Nat
  n_pos : 0 < n

structure ChunkState where
  it : Nat
  remainder : Nat
  deriving DecidableEq, Repr

namespace ChunkInputView

variable {α : Type}

/-- `ranges::end(base_)`. -/
def last (v : ChunkInputView α) : Nat := v.base.length

/-- The constructor sets `remainder_`, `begin_cursor` the iterator. -/
def beginCursor (v : ChunkInputView α) : ChunkState := ⟨0, v.n⟩

/-! `outer_cursor::inner_view` -/

def innerDone (s : ChunkState) : Bool := s.remainder == 0

def innerRead (v : ChunkInputView α) (s : ChunkState) : Exec α :=
  if innerDone s then .error .fault
  else match v.base[s.it]? with
    | some x => .ok x
    | none => .error .fault

def innerNext (v : ChunkInputView α) (s : ChunkState) : Exec ChunkState :=
  if innerDone s then .error .fault
  else if s.it = v.last then .error .fault
  else
    let it := s.it + 1
    let remainder := s.remainder - 1
    if remainder ≠ 0 ∧ it = v.last then .ok ⟨it, 0⟩ else .ok ⟨it, remainder⟩

def innerDistanceTo (v : ChunkInputView α) (s : ChunkState) : Nat :=
  min (v.last - s.it) s.remainder

/-! `outer_cursor` -/

def outerDone (v : ChunkInputView α) (s : ChunkState) : Bool :=
  s.it == v.last && s.remainder != 0

/-- `ranges::advance(it, remainder_, end)` moves by whichever is smaller. -/
def outerNext (v : ChunkInputView α) (s : ChunkState) : Exec ChunkState :=
  if outerDone v s then .error .fault
  else .ok ⟨s.it + min s.remainder (v.last - s.it), v.n⟩

def outerDistanceTo (v : ChunkInputView α) (s : ChunkState) : Nat :=
  let d := v.last - s.it
  if d < s.remainder then 1
  else
    let d := d - s.remainder
    let d := (d + v.n - 1) / v.n
    d + if s.remainder ≠ 0 then 1 else 0

/-- `size_(ranges::size(base_))`. -/
def size (v : ChunkInputView α) : Nat :=
  v.base.length / v.n + if v.base.length % v.n ≠ 0 then 1 else 0

/-! ## Reachable states and what has been read -/

/-- The states reachable by inner and outer increments in any order, with the elements
read so far, one list for each chunk, the current one last. An inner view exists only
while the outer cursor is not done, since reading the cursor expects that. -/
inductive Reachable (v : ChunkInputView α) : ChunkState → List (List α) → Prop
  | start : Reachable v (beginCursor v) [[]]
  | inner {s s' : ChunkState} {chunks : List (List α)} {current : List α} {x : α} :
      Reachable v s (chunks ++ [current]) → outerDone v s = false → innerRead v s = .ok x →
      innerNext v s = .ok s' → Reachable v s' (chunks ++ [current ++ [x]])
  | outer {s s' : ChunkState} {chunks : List (List α)} :
      Reachable v s chunks → outerNext v s = .ok s' → Reachable v s' (chunks ++ [[]])

/-- The invariant behind the two encodings: with `chunks.length` chunks before the
current one and `c` elements of it read, the iterator is at the position both name,
cut off at the end of the base, and `remainder_` is what the chunk still lacks, or
zero once the last chunk has been read to the end of the base. -/
structure Inv (v : ChunkInputView α) (s : ChunkState) (chunks : List (List α))
    (current : List α) : Prop where
  it_eq : s.it = min (chunks.length * v.n + current.length) v.last
  read_le : current.length ≤ v.n
  inside : 0 < current.length → chunks.length * v.n + current.length ≤ v.last
  remainder_eq : s.remainder =
    if 0 < current.length ∧ chunks.length * v.n + current.length = v.last then 0
    else v.n - current.length
  started : chunks.length = 0 ∨ (chunks.length - 1) * v.n < v.last
  current_eq : current = (block v.n v.base chunks.length).take current.length
  prefixes : ∀ k (hk : k < chunks.length), chunks[k] <+: block v.n v.base k

theorem start_inv (v : ChunkInputView α) : Inv v (beginCursor v) [] [] where
  it_eq := by simp [beginCursor]
  read_le := Nat.zero_le _
  inside := fun h => absurd h (Nat.lt_irrefl 0)
  remainder_eq := by simp [beginCursor]
  started := .inl rfl
  current_eq := by simp
  prefixes := fun k hk => absurd hk (Nat.not_lt_zero k)

/-- Done means: nothing read of the current chunk, and it begins at or past the end. -/
theorem Inv.outerDone_iff {v : ChunkInputView α} {s : ChunkState} {chunks : List (List α)}
    {current : List α} (h : Inv v s chunks current) :
    outerDone v s = true ↔ current.length = 0 ∧ v.last ≤ chunks.length * v.n := by
  have hn := v.n_pos
  have hit := h.it_eq
  have hrem := h.remainder_eq
  have hin := h.inside
  rw [outerDone, Bool.and_eq_true, beq_iff_eq, bne_iff_ne]
  split at hrem <;> omega

/-- An inner view is exhausted exactly when all of its block has been read. -/
theorem Inv.innerDone_iff {v : ChunkInputView α} {s : ChunkState} {chunks : List (List α)}
    {current : List α} (h : Inv v s chunks current) :
    innerDone s = true ↔ 0 < current.length ∧ current = block v.n v.base chunks.length := by
  have hn := v.n_pos
  have hle := h.read_le
  have hrem := h.remainder_eq
  have hin := h.inside
  have hlen := length_block v.n v.base chunks.length
  have hfull : current = block v.n v.base chunks.length ↔
      current.length = (block v.n v.base chunks.length).length := by
    constructor
    · exact fun he => congrArg List.length he
    · intro he
      rw [h.current_eq, he, List.take_length]
  rw [hfull, hlen, innerDone, beq_iff_eq]
  unfold last at hin hrem
  split at hrem <;> omega

theorem Inv.innerStep {v : ChunkInputView α} {s s' : ChunkState} {chunks : List (List α)}
    {current : List α} {x : α} (h : Inv v s chunks current)
    (hread : innerRead v s = .ok x) (hnext : innerNext v s = .ok s') :
    Inv v s' chunks (current ++ [x]) := by
  have hn := v.n_pos
  have hit := h.it_eq
  have hle := h.read_le
  have hrem := h.remainder_eq
  have hin := h.inside
  -- the element read is the one the block has at this place
  have hx : v.base[s.it]? = some x := by
    unfold innerRead at hread
    split at hread
    · cases hread
    · split at hread
      · rename_i y hy
        rw [hy, Except.ok.inj hread]
      · cases hread
  have hlt : s.it < v.last := (List.getElem?_eq_some_iff.mp hx).1
  unfold innerNext at hnext
  split at hnext
  · cases hnext
  next hinner =>
    have hne : s.remainder ≠ 0 := by simpa [innerDone] using hinner
    have hcur : current.length < v.n := by split at hrem <;> omega
    have hpos : s.it = chunks.length * v.n + current.length := by omega
    have htake : current ++ [x] = (block v.n v.base chunks.length).take (current.length + 1) := by
      rw [List.take_add_one, block_getElem? _ _ _ _ hcur, ← hpos, hx, ← h.current_eq]
      rfl
    have hlen : (current ++ [x]).length = current.length + 1 := by simp
    rw [if_neg (Nat.ne_of_lt hlt)] at hnext
    have hs' : s' = ⟨s.it + 1, if s.remainder - 1 ≠ 0 ∧ s.it + 1 = v.last then 0
        else s.remainder - 1⟩ := by
      dsimp only at hnext
      split at hnext
      next hend => rw [← Except.ok.inj hnext, if_pos hend]
      next hend => rw [← Except.ok.inj hnext, if_neg hend]
    subst hs'
    exact {
      it_eq := by rw [hlen]; dsimp only; omega
      read_le := by rw [hlen]; omega
      inside := by rw [hlen]; omega
      remainder_eq := by
        rw [hlen]
        dsimp only
        split at hrem <;> split <;> split <;> omega
      started := h.started
      current_eq := by rw [hlen]; exact htake
      prefixes := h.prefixes }

theorem Inv.outerStep {v : ChunkInputView α} {s s' : ChunkState} {chunks : List (List α)}
    {current : List α} (h : Inv v s chunks current) (hnext : outerNext v s = .ok s') :
    Inv v s' (chunks ++ [current]) [] := by
  have hn := v.n_pos
  have hit := h.it_eq
  have hle := h.read_le
  have hrem := h.remainder_eq
  have hin := h.inside
  unfold outerNext at hnext
  split at hnext
  · cases hnext
  next hdone =>
    rw [h.outerDone_iff] at hdone
    have hs' := (Except.ok.inj hnext).symm
    subst hs'
    have hlen : (chunks ++ [current]).length = chunks.length + 1 := by simp
    have hmul : (chunks.length + 1) * v.n = chunks.length * v.n + v.n := Nat.succ_mul _ _
    exact {
      it_eq := by
        rw [hlen, hmul]
        simp only [List.length_nil]
        split at hrem <;> omega
      read_le := Nat.zero_le _
      inside := fun h0 => absurd h0 (Nat.lt_irrefl 0)
      remainder_eq := by simp
      started := by
        rw [hlen, Nat.add_sub_cancel]
        omega
      current_eq := by simp
      prefixes := by
        intro k hk
        rw [hlen] at hk
        rcases Nat.lt_or_ge k chunks.length with hk' | hk'
        · rw [List.getElem_append_left hk']
          exact h.prefixes k hk'
        · have hk'' : k = chunks.length := by omega
          subst hk''
          rw [List.getElem_concat_length rfl]
          rw [h.current_eq]
          exact List.take_prefix _ _ }

theorem Reachable.inv {v : ChunkInputView α} {s : ChunkState} {log : List (List α)}
    (h : Reachable v s log) :
    ∃ chunks current, log = chunks ++ [current] ∧ Inv v s chunks current := by
  induction h with
  | start => exact ⟨[], [], rfl, start_inv v⟩
  | @inner s s' chunks current x _ _ hread hnext ih =>
    obtain ⟨chunks', current', heq, hinv⟩ := ih
    obtain ⟨rfl, hcur⟩ := List.append_inj' heq rfl
    cases hcur
    exact ⟨_, _, rfl, hinv.innerStep hread hnext⟩
  | outer _ hnext ih =>
    obtain ⟨chunks', current', rfl, hinv⟩ := ih
    exact ⟨_, _, rfl, hinv.outerStep hnext⟩

/-! ## Counting the outer steps -/

/-- Exactly `count` calls of the outer `next` lead from `s` to `done()`. -/
inductive StepsToDone (v : ChunkInputView α) : ChunkState → Nat → Prop
  | done {s : ChunkState} : outerDone v s = true → StepsToDone v s 0
  | next {s s' : ChunkState} {count : Nat} : outerNext v s = .ok s' → StepsToDone v s' count →
      StepsToDone v s (count + 1)

theorem outerNext_not_done {v : ChunkInputView α} {s s' : ChunkState}
    (h : outerNext v s = .ok s') : outerDone v s = false := by
  unfold outerNext at h
  split at h
  · cases h
  · simpa using ‹¬ outerDone v s = true›

theorem StepsToDone.unique {v : ChunkInputView α} {s : ChunkState} {m m' : Nat}
    (h : StepsToDone v s m) (h' : StepsToDone v s m') : m = m' := by
  induction h generalizing m' with
  | done hd =>
    cases h' with
    | done => rfl
    | next hn => rw [outerNext_not_done hn] at hd; cases hd
  | next hn _ ih =>
    cases h' with
    | done hd => rw [outerNext_not_done hn] at hd; cases hd
    | next hn' hrest =>
      rw [hn] at hn'
      cases hn'
      rw [ih hrest]

/-- From a cursor that has just moved, the count is the rounded-up quotient. -/
theorem stepsToDone_fresh (v : ChunkInputView α) (it : Nat) (h : it ≤ v.last) :
    StepsToDone v ⟨it, v.n⟩ (ceilDiv (v.last - it) v.n) := by
  have hn := v.n_pos
  generalize hd : v.last - it = d
  induction d using Nat.strongRecOn generalizing it with
  | _ d ih =>
    rcases Nat.eq_zero_or_pos d with rfl | hpos
    · rw [ceilDiv_zero]
      have hit : it = v.last := by omega
      exact .done (by simp [outerDone, hit]; omega)
    · rw [ceilDiv_of_pos hn hpos]
      have hne : outerDone v ⟨it, v.n⟩ = false := by
        simp only [outerDone, Bool.and_eq_false_iff, beq_eq_false_iff_ne]
        exact .inl (by omega)
      have hstep : outerNext v ⟨it, v.n⟩ = .ok ⟨it + min v.n (v.last - it), v.n⟩ := by
        simp [outerNext, hne]
      exact .next hstep (ih (d - v.n) (by omega) _ (by omega) (by omega))

/-- From any state short of `done()`: one step, then the fresh count. -/
theorem stepsToDone_next (v : ChunkInputView α) {s : ChunkState} (hit : s.it ≤ v.last)
    (h : outerDone v s = false) :
    StepsToDone v s (ceilDiv (v.last - s.it - s.remainder) v.n + 1) := by
  have hstep : outerNext v s = .ok ⟨s.it + min s.remainder (v.last - s.it), v.n⟩ := by
    simp [outerNext, h]
  have hfresh := stepsToDone_fresh v (s.it + min s.remainder (v.last - s.it)) (by omega)
  have hleft : v.last - (s.it + min s.remainder (v.last - s.it)) =
      v.last - s.it - s.remainder := by omega
  rw [hleft] at hfresh
  exact .next hstep hfresh

/-- The reported distance is the number of outer steps exactly while the base is not
exhausted and the current chunk not used up. -/
theorem stepsToDone_outerDistanceTo_iff (v : ChunkInputView α) {s : ChunkState}
    (hit : s.it ≤ v.last) :
    StepsToDone v s (outerDistanceTo v s) ↔ s.remainder ≠ 0 ∧ s.it ≠ v.last := by
  have hn := v.n_pos
  cases hdone : outerDone v s with
  | true =>
    have hd := hdone
    rw [outerDone, Bool.and_eq_true, beq_iff_eq, bne_iff_ne] at hd
    constructor
    · intro hsteps
      have h0 := hsteps.unique (.done hdone)
      unfold outerDistanceTo at h0
      dsimp only at h0
      rw [if_pos (by omega)] at h0
      cases h0
    · rintro ⟨_, hne⟩
      exact absurd hd.1 hne
  | false =>
    have hsteps := stepsToDone_next v hit hdone
    have hcond : StepsToDone v s (outerDistanceTo v s) ↔
        outerDistanceTo v s = ceilDiv (v.last - s.it - s.remainder) v.n + 1 :=
      ⟨fun h => h.unique hsteps, fun h => h ▸ hsteps⟩
    rw [hcond, outerDistanceTo]
    dsimp only
    by_cases hlt : v.last - s.it < s.remainder
    · have hne : s.it ≠ v.last := by
        intro he
        simp only [outerDone, he, beq_self_eq_true, Bool.true_and, bne_eq_false_iff_eq] at hdone
        omega
      have hzero : v.last - s.it - s.remainder = 0 := by omega
      rw [if_pos hlt, hzero, ceilDiv_zero]
      exact ⟨fun _ => ⟨by omega, hne⟩, fun _ => rfl⟩
    · rw [if_neg hlt]
      by_cases hzero : s.remainder = 0
      · simp [hzero, ceilDiv]
      · simp only [hzero, not_false_eq_true, if_true, ne_eq, true_and, ceilDiv, true_iff]
        omega

/-- Off the two done states an inner view can be read and incremented. -/
theorem Inv.innerProgress {v : ChunkInputView α} {s : ChunkState} {chunks : List (List α)}
    {current : List α} (h : Inv v s chunks current) (houter : outerDone v s = false)
    (hinner : innerDone s = false) : ∃ x s', innerRead v s = .ok x ∧ innerNext v s = .ok s' := by
  have hit := h.it_eq
  have hne : s.remainder ≠ 0 := by simpa [innerDone] using hinner
  have hlt : s.it < v.base.length := by
    simp only [outerDone, Bool.and_eq_false_iff, beq_eq_false_iff_ne, bne_eq_false_iff_eq] at houter
    unfold last at hit houter
    omega
  have hlast : s.it ≠ v.last := Nat.ne_of_lt hlt
  refine ⟨v.base[s.it], ?_⟩
  simp only [innerRead, innerNext, hinner, hlast, List.getElem?_eq_getElem hlt, Bool.false_eq_true,
    if_false, true_and]
  split <;> exact ⟨_, rfl⟩

/-- In every reachable state the chunks delivered are the blocks of the base, read in
order, each complete once its inner view is done; and the outer distance is right
exactly while the base is not exhausted and the current chunk is not used up. -/
theorem chunkInputView_law {v : ChunkInputView α} {s : ChunkState} {log : List (List α)}
    (h : Reachable v s log) :
    (StepsToDone v s (outerDistanceTo v s) ↔ s.remainder ≠ 0 ∧ s.it ≠ v.last) ∧
    (∀ k (hk : k < log.length), log[k] <+: block v.n v.base k) ∧
    (innerDone s = true → log.getLast? = some (block v.n v.base (log.length - 1))) ∧
    (outerDone v s = false → innerDone s = false →
      ∃ x s', innerRead v s = .ok x ∧ innerNext v s = .ok s') ∧
    (outerDone v s = true → log.length = (blocks v.n v.base).length + 1) ∧
    (blocks v.n v.base).flatten = v.base := by
  obtain ⟨chunks, current, rfl, hinv⟩ := h.inv
  have hlen : (chunks ++ [current]).length = chunks.length + 1 := by simp
  refine ⟨stepsToDone_outerDistanceTo_iff v ?_, fun k hk => ?_, fun hdone => ?_,
    hinv.innerProgress, fun hdone => ?_, blocks_flatten v.n_pos v.base⟩
  · rw [hinv.it_eq]
    exact Nat.min_le_right _ _
  · rw [hlen] at hk
    rcases Nat.lt_or_ge k chunks.length with hk' | hk'
    · rw [List.getElem_append_left hk']
      exact hinv.prefixes k hk'
    · have hk'' : k = chunks.length := by omega
      subst hk''
      rw [List.getElem_concat_length rfl, hinv.current_eq]
      exact List.take_prefix _ _
  · rw [hlen, Nat.add_sub_cancel, List.getLast?_concat]
    exact congrArg some (hinv.innerDone_iff.mp hdone).2
  · rw [hlen, blocks, List.length_map, List.length_range]
    have hend := (hinv.outerDone_iff.mp hdone).2
    exact congrArg (· + 1) (ceilDiv_unique v.n_pos hend hinv.started)

/-- Five elements in chunks of two. -/
def five : ChunkInputView Nat := ⟨[0, 1, 2, 3, 4], 2, by decide⟩

theorem five_reachable_inner : Reachable five ⟨1, 1⟩ [[0]] :=
  have hstart : Reachable five (beginCursor five) ([] ++ [[]]) := .start
  hstart.inner rfl rfl rfl

theorem chunkInputView_law_five : StepsToDone five ⟨1, 1⟩ 3 :=
  (chunkInputView_law five_reachable_inner).1.mpr (by decide)

/-- An empty base: `done()` at once, and a reported distance of one step. -/
theorem chunkInputView_empty : Reachable ⟨([] : List Nat), 2, by decide⟩ ⟨0, 2⟩ [[]] ∧
    outerDone ⟨([] : List Nat), 2, by decide⟩ ⟨0, 2⟩ = true ∧
    ¬ StepsToDone ⟨([] : List Nat), 2, by decide⟩ ⟨0, 2⟩
      (outerDistanceTo ⟨([] : List Nat), 2, by decide⟩ ⟨0, 2⟩) := by
  refine ⟨.start, rfl, fun h => ?_⟩
  exact absurd (h.unique (.done rfl)) (by decide)

end ChunkInputView

end EARanges.View
