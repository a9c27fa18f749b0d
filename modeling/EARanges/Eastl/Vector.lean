import EARanges.Support.Cells
import EARanges.Action.Slice

/-!
# `eastl::vector`

vector.h of EASTL, the container that the actions work on and that views are stored to. Its
storage is modelled cell by cell: what the vector does in place, over its own elements and into
the raw memory behind them, and what it does when it grows are different programs.
-/
namespace EARanges.Eastl
open EARanges.Support EARanges.Support.Cells

variable {α : Type}

/-- What is known of `T`: what a move leaves behind, and whether
`uninitialized_move_if_noexcept` moves. -/
structure Element (α : Type) where
  husk : α → α
  moves : Bool

/-- What the old storage holds after growing, until it is destroyed. -/
def Element.growHusk (e : Element α) : α → α := if e.moves then e.husk else id

/-- A `const value_type&`. -/
inductive ValueArg (α : Type) where
  | outside (x : α)
  | own (i : Nat)

/-- The value, read from the storage the vector has at that time. -/
def ValueArg.read (c : Cells α) : ValueArg α → Exec α
  | .outside x => .ok x
  | .own i => Cells.read c i

/-- `[mpBegin, internalCapacityPtr())`, and `mpEnd - mpBegin`. -/
structure Vector (α : Type) where
  cells : Cells α
  size : Nat

namespace Vector

def capacity (v : Vector α) : Nat := v.cells.length

/-- `vector()`. -/
def empty : Vector α := ⟨[], 0⟩

/-- `clear`, and then the storage is freed. -/
def destruct (v : Vector α) : Exec Unit := do
  let c ← destroyAll v.size 0 v.cells
  release c

def getNewCapacity (currentCapacity : Nat) : Nat :=
  if 0 < currentCapacity then 2 * currentCapacity else 1

def doAllocate (n : Nat) : Cells α := raw n

/-- `destruct(mpBegin, mpEnd); DoFree(mpBegin, ..);` and then the new storage is the vector's. -/
def replaceStorage (old : Cells α) (prevSize : Nat) (newData : Cells α) (newEnd : Nat) :
    Exec (Vector α) := do
  destruct ⟨old, prevSize⟩
  .ok ⟨newData, newEnd⟩

def doGrow (e : Element α) (v : Vector α) (n : Nat) : Exec (Vector α) := do
  let (old, newData) ← moveAcross e.growHusk v.size 0 0 (v.cells, doAllocate n)
  replaceStorage old v.size newData v.size

def reserve (e : Element α) (v : Vector α) (n : Nat) : Exec (Vector α) :=
  if v.capacity < n then doGrow e v n else .ok v

def doInsertValueEnd (e : Element α) (v : Vector α) (value : ValueArg α) : Exec (Vector α) := do
  let newData := doAllocate (getNewCapacity v.size)
  let (old, newData) ← moveAcross e.growHusk v.size 0 0 (v.cells, newData)
  let x ← value.read old
  let newData ← put true newData v.size x
  replaceStorage old v.size newData (v.size + 1)

/-- `::new((void*)mpEnd++) value_type(value)`. -/
def constructAtEnd (v : Vector α) (value : ValueArg α) : Exec (Vector α) := do
  let x ← value.read v.cells
  let c ← put true v.cells v.size x
  .ok ⟨c, v.size + 1⟩

def pushBack (e : Element α) (v : Vector α) (value : ValueArg α) : Exec (Vector α) :=
  if v.size < v.capacity then constructAtEnd v value else doInsertValueEnd e v value

def popBack (v : Vector α) : Exec (Vector α) :=
  if 0 < v.size then do
    let c ← destroy v.cells (v.size - 1)
    .ok ⟨c, v.size - 1⟩
  else .error .fault

def doInsertValue (e : Element α) (v : Vector α) (position : Nat) (value : ValueArg α) :
    Exec (Vector α) :=
  if v.size ≠ v.capacity then
    if position < v.size then do
      let x ← value.read v.cells
      let (y, c) ← moveOut e.husk v.cells (v.size - 1)
      let c ← put true c v.size y
      let c ← moveBackward false e.husk (v.size - 1 - position) (v.size - 1) v.size c
      let c ← destroy c position
      let c ← put true c position x
      .ok ⟨c, v.size + 1⟩
    else .error .fault
  else do
    let newData := doAllocate (getNewCapacity v.size)
    let x ← value.read v.cells
    let newData ← put true newData position x
    let (old, newData) ← moveAcross e.growHusk position 0 0 (v.cells, newData)
    let (old, newData) ←
      moveAcross e.growHusk (v.size - position) position (position + 1) (old, newData)
    replaceStorage old v.size newData (v.size + 1)

def insert (e : Element α) (v : Vector α) (position : Nat) (value : ValueArg α) :
    Exec (Vector α) :=
  if position ≤ v.size then
    if v.size = v.capacity ∨ position ≠ v.size then doInsertValue e v position value
    else constructAtEnd v value
  else .error .fault

/-- The new capacity when `n` more elements do not fit. -/
def newSize (size n : Nat) : Nat :=
  if size + n < getNewCapacity size then getNewCapacity size else size + n

def doInsertFromIterator (e : Element α) (v : Vector α) (position : Nat) (values : List α) :
    Exec (Vector α) :=
  if position ≤ v.size then
    if values = [] then .ok v
    else
      let n := values.length
      if n ≤ v.capacity - v.size then
        let nExtra := v.size - position
        if n < nExtra then do
          let c ← moveForward true e.husk n (v.size - n) v.size v.cells
          let c ← moveBackward false e.husk (v.size - n - position) (v.size - n) v.size c
          let c ← copyIn false values position c
          .ok ⟨c, v.size + n⟩
        else do
          let c ← copyIn true (values.drop nExtra) v.size v.cells
          let c ← moveForward true e.husk nExtra position (v.size + n - nExtra) c
          let c ← copyInBackward false (values.take nExtra).reverse (position + nExtra) c
          .ok ⟨c, v.size + n⟩
      else do
        let newData := doAllocate (newSize v.size n)
        let (old, newData) ← moveAcross e.growHusk position 0 0 (v.cells, newData)
        let newData ← copyIn true values position newData
        let (old, newData) ←
          moveAcross e.growHusk (v.size - position) position (position + n) (old, newData)
        replaceStorage old v.size newData (v.size + n)
  else .error .fault

/-- `DoInsertFromIterator` for iterators that can be passed only once. -/
def doInsertFromInput (e : Element α) (v : Vector α) (position : Nat) :
    List α → Exec (Vector α)
  | [] => .ok v
  | x :: rest => do
    let v ← v.insert e position (.outside x)
    doInsertFromInput e v (position + 1) rest

def doInsertValues (e : Element α) (v : Vector α) (position n : Nat) (value : ValueArg α) :
    Exec (Vector α) :=
  if position ≤ v.size then
    if n ≤ v.capacity - v.size then
      if 0 < n then do
        let temp ← value.read v.cells
        let nExtra := v.size - position
        if n < nExtra then
          let c ← moveForward true e.husk n (v.size - n) v.size v.cells
          let c ← moveBackward false e.husk (v.size - n - position) (v.size - n) v.size c
          let c ← copyIn false (List.replicate n temp) position c
          .ok ⟨c, v.size + n⟩
        else
          let c ← copyIn true (List.replicate (n - nExtra) temp) v.size v.cells
          let c ← moveForward true e.husk nExtra position (v.size + n - nExtra) c
          let c ← copyIn false (List.replicate nExtra temp) position c
          .ok ⟨c, v.size + n⟩
      else .ok v
    else do
      let newData := doAllocate (newSize v.size n)
      let (old, newData) ← moveAcross e.growHusk position 0 0 (v.cells, newData)
      let x ← value.read old
      let newData ← copyIn true (List.replicate n x) position newData
      let (old, newData) ←
        moveAcross e.growHusk (v.size - position) position (position + n) (old, newData)
      replaceStorage old v.size newData (v.size + n)
  else .error .fault

def erase (e : Element α) (v : Vector α) (position : Nat) : Exec (Vector α) :=
  if position < v.size then do
    let c ←
      if position + 1 < v.size then
        moveForward false e.husk (v.size - (position + 1)) (position + 1) position v.cells
      else .ok v.cells
    let c ← destroy c (v.size - 1)
    .ok ⟨c, v.size - 1⟩
  else .error .fault

def eraseRange (e : Element α) (v : Vector α) (first last : Nat) : Exec (Vector α) :=
  if first ≤ last ∧ last ≤ v.size then
    if first ≠ last then do
      let c ← moveForward false e.husk (v.size - last) last first v.cells
      let position := first + (v.size - last)
      let c ← destroyAll (v.size - position) position c
      .ok ⟨c, v.size - (last - first)⟩
    else .ok v
  else .error .fault

def eraseUnsorted (e : Element α) (v : Vector α) (position : Nat) : Exec (Vector α) :=
  if position < v.size then do
    let (x, c) ← moveOut e.husk v.cells (v.size - 1)
    let c ← put false c position x
    let c ← destroy c (v.size - 1)
    .ok ⟨c, v.size - 1⟩
  else .error .fault

def clear (v : Vector α) : Exec (Vector α) := do
  let c ← destroyAll v.size 0 v.cells
  .ok ⟨c, 0⟩

/-! ## In place and across -/

/-- The vector that holds `xs` and has room for this many more. -/
def stored (xs : List α) (room : Nat) : Vector α := ⟨live xs ++ raw room, xs.length⟩

/-- The room that is left after inserting `n` elements. -/
def roomAfter (size room n : Nat) : Nat :=
  if n ≤ room then room - n else newSize size n - (size + n)

end Vector

/-- The value, when the vector holds `xs`. -/
def ValueArg.value (xs : List α) : ValueArg α → Option α
  | .outside x => some x
  | .own i => xs[i]?

theorem read_value {value : ValueArg α} {xs : List α} {x : α} (B : Cells α)
    (h : value.value xs = some x) : value.read (live xs ++ B) = .ok x := by
  cases value with
  | outside y => exact congrArg Except.ok (Option.some.inj h)
  | own i =>
    obtain ⟨hi, _⟩ := List.getElem?_eq_some_iff.mp h
    have hcell : (live xs ++ B)[i]? = some (some x) := by
      rw [List.getElem?_append_left (by rwa [live_length]), live, List.getElem?_map]
      exact congrArg (Option.map some) h
    rw [ValueArg.read, Cells.read, hcell]

namespace Vector

theorem stored_capacity (xs : List α) (room : Nat) :
    (stored xs room).capacity = xs.length + room := by
  rw [capacity, stored, List.length_append, live_length, raw_length]

theorem size_ne_capacity (xs : List α) (room : Nat) :
    (stored xs (room + 1)).size ≠ (stored xs (room + 1)).capacity := by
  rw [stored_capacity]
  exact Nat.ne_of_lt (Nat.lt_add_of_pos_right (Nat.succ_pos room))

theorem stored_room (xs : List α) (room : Nat) :
    (stored xs room).capacity - (stored xs room).size = room := by
  rw [stored_capacity, stored, Nat.add_sub_cancel_left]

theorem eq_stored {c : Cells α} {n : Nat} {xs : List α} {room : Nat}
    (hcells : c = live xs ++ raw room) (hsize : n = xs.length) :
    (⟨c, n⟩ : Vector α) = stored xs room := by
  rw [hcells, hsize]
  rfl

theorem size_append (xs ys : List α) (room : Nat) :
    (stored xs room).size + ys.length = (xs ++ ys).length := List.length_append.symm

theorem length_append_singleton (xs : List α) (x : α) : (xs ++ [x]).length = xs.length + 1 := by
  rw [List.length_append, List.length_singleton]

theorem live_snoc (xs : List α) (x : α) (B : Cells α) :
    live (xs ++ [x]) ++ B = live xs ++ some x :: B := by
  rw [live_append, List.append_assoc]
  rfl

theorem lt_getNewCapacity (n : Nat) : n < getNewCapacity n := by
  rw [getNewCapacity]
  split <;> omega

theorem newSize_one (size : Nat) : newSize size 1 = getNewCapacity size := by
  have := lt_getNewCapacity size
  rw [newSize]
  split <;> omega

theorem le_newSize (size n : Nat) : size + n ≤ newSize size n := by
  rw [newSize]
  split <;> omega

theorem destruct_live {ys : List α} {n : Nat} (hlength : ys.length = n) (room : Nat) :
    destruct ⟨live ys ++ raw room, n⟩ = .ok () := by
  have hdestroy := @destroyAll_spec α [] (raw room) (live ys) (all_live ys) 0 rfl
  rw [live_length, ← raw_add] at hdestroy
  rw [destruct, ← hlength]
  change (destroyAll ys.length 0 (live ys ++ raw room) >>= release) = _
  rw [← List.nil_append (live ys ++ raw room), hdestroy, exec_bind_ok]
  exact release_raw _

theorem replaceStorage_live {ys : List α} {n : Nat} (hlength : ys.length = n) (room : Nat)
    (newData : Cells α) (newEnd : Nat) :
    replaceStorage (live ys ++ raw room) n newData newEnd = .ok ⟨newData, newEnd⟩ := by
  rw [replaceStorage, destruct_live hlength, exec_bind_ok]

theorem doGrow_stored (e : Element α) (xs : List α) (room : Nat) {n : Nat} (h : xs.length ≤ n) :
    doGrow e (stored xs room) n = .ok (stored xs (n - xs.length)) := by
  have hnew : (doAllocate n : Cells α) = [] ++ (raw xs.length ++ raw (n - xs.length)) := by
    rw [List.nil_append, ← raw_add, Nat.add_sub_cancel' h]
    rfl
  have hmove := @moveAcross_spec α [] (raw room) _ xs e.growHusk [] (raw (n - xs.length))
    (all_raw xs.length) (raw_length _) 0 0 rfl rfl
  rw [doGrow, hnew]
  change (moveAcross e.growHusk xs.length 0 0 ([] ++ (live xs ++ raw room), _) >>= _) = _
  rw [hmove, exec_bind_ok]
  exact replaceStorage_live (List.length_map _) room _ _

theorem raw_split {k n : Nat} (h : k ≤ n) :
    (doAllocate n : Cells α) = raw k ++ raw (n - k) := by
  rw [← raw_add, Nat.add_sub_cancel' h]
  rfl

theorem doInsertValueEnd_stored (e : Element α) (xs : List α) (room : Nat) {value : ValueArg α}
    {y : α} (h : value.value (xs.map e.growHusk) = some y) :
    doInsertValueEnd e (stored xs room) value =
      .ok (stored (xs ++ [y]) (getNewCapacity xs.length - (xs.length + 1))) := by
  have hlt := lt_getNewCapacity xs.length
  obtain ⟨rest, hrest⟩ := Nat.exists_eq_add_of_lt hlt
  have hnew : (doAllocate (getNewCapacity xs.length) : Cells α) =
      [] ++ (raw xs.length ++ (none :: raw rest)) := by
    rw [List.nil_append, hrest, Nat.add_assoc, raw_split (Nat.le_add_right _ _),
      Nat.add_sub_cancel_left]
    rfl
  have hmove := @moveAcross_spec α [] (raw room) _ xs e.growHusk [] (none :: raw rest)
    (all_raw xs.length) (raw_length _) 0 0 rfl rfl
  have hput : put true (live xs ++ none :: raw rest) xs.length y =
      .ok (live xs ++ some y :: raw rest) := put_at y (live_length xs) rfl
  rw [doInsertValueEnd]
  change (moveAcross e.growHusk xs.length 0 0
    ([] ++ (live xs ++ raw room), doAllocate (getNewCapacity xs.length)) >>= _) = _
  rw [hnew, hmove, exec_bind_ok]
  dsimp only [List.nil_append]
  rw [read_value _ h, exec_bind_ok]
  change (put true (live xs ++ none :: raw rest) xs.length y >>= _) = _
  rw [hput, exec_bind_ok]
  refine (replaceStorage_live (List.length_map _) room _ _).trans ?_
  have hroom : getNewCapacity xs.length - (xs.length + 1) = rest := by omega
  rw [hroom]
  exact congrArg Except.ok (eq_stored (live_snoc xs y _).symm (size_append xs [y] room))

theorem constructAtEnd_stored (xs : List α) (room : Nat) {value : ValueArg α} {x : α}
    (h : value.value xs = some x) :
    constructAtEnd (stored xs (room + 1)) value = .ok (stored (xs ++ [x]) room) := by
  have hput : put true (live xs ++ none :: raw room) xs.length x =
      .ok (live xs ++ some x :: raw room) := put_at x (live_length xs) rfl
  rw [constructAtEnd]
  change (value.read (live xs ++ raw (room + 1)) >>= _) = _
  rw [read_value _ h, exec_bind_ok]
  change (put true (live xs ++ none :: raw room) xs.length x >>= _) = _
  rw [hput, exec_bind_ok]
  exact congrArg Except.ok (eq_stored (live_snoc xs x _).symm (size_append xs [x] _))

theorem popBack_stored (xs : List α) (x : α) (room : Nat) :
    popBack (stored (xs ++ [x]) room) = .ok (stored xs (room + 1)) := by
  have hdestroy : destroy (live xs ++ some x :: raw room) xs.length =
      .ok (live xs ++ none :: raw room) := destroy_at (live_length xs)
  have hsize : (stored (xs ++ [x]) room).size = xs.length + 1 := List.length_append
  rw [popBack, hsize, if_pos (Nat.succ_pos _), Nat.add_sub_cancel]
  change (destroy (live (xs ++ [x]) ++ raw room) xs.length >>= _) = _
  rw [live_snoc, hdestroy, exec_bind_ok]
  rfl

/-! ## Insertion in the middle -/

/-- The last elements go to raw cells and those before them over what is left there. -/
theorem shift_up (e : Element α) (a m t : List α) (B : Cells α) (hpos : 0 < t.length) :
    ∃ c L : Cells α, L.length = t.length ∧ All false L ∧
      moveForward true e.husk t.length (a.length + m.length) (a.length + m.length + t.length)
        (live (a ++ (m ++ t)) ++ (raw t.length ++ B)) = .ok c ∧
      moveBackward false e.husk m.length (a.length + m.length)
        (a.length + m.length + t.length) c = .ok (live a ++ (L ++ (live m ++ (live t ++ B)))) := by
  have hforward := @moveForward_spec α (live (a ++ m)) B (raw t.length) t true e.husk []
    (all_raw _) (raw_length _) (a.length + m.length) (a.length + m.length + t.length)
    (by rw [live_length, List.length_append]) rfl
  obtain ⟨L, hlength, hL, hbackward⟩ := @moveBackward_up α (live a) (live t ++ B) m e.husk
    (live (t.map e.husk)) (all_live _) (by rwa [live_length, List.length_map])
    (a.length + m.length) (a.length + m.length + t.length) (by rw [live_length])
    (by rw [live_length, List.length_map])
  rw [live_length, List.length_map] at hlength
  refine ⟨_, L, hlength, hL, ?_, hbackward⟩
  simp only [live_append, List.append_assoc, List.nil_append] at hforward ⊢
  exact hforward

/-- The elements go behind `w`, which was put where they will no longer reach. -/
theorem shift_out (e : Element α) (a t w : List α) (B : Cells α) :
    copyIn true w (a.length + t.length)
        (live (a ++ t) ++ (raw w.length ++ (raw t.length ++ B))) =
      .ok (live a ++ (live t ++ (live w ++ (raw t.length ++ B)))) ∧
    moveForward true e.husk t.length a.length (a.length + t.length + w.length)
        (live a ++ (live t ++ (live w ++ (raw t.length ++ B)))) =
      .ok (live a ++ (live (t.map e.husk) ++ (live w ++ (live t ++ B)))) := by
  constructor
  · have hcopy := @copyIn_spec α (live (a ++ t)) (raw t.length ++ B) (raw w.length) w true
      (all_raw _) (raw_length _) (a.length + t.length) (by rw [live_length, List.length_append])
    rw [hcopy, live_append, List.append_assoc]
  · exact moveForward_spec (all_raw _) (raw_length _) (live_length a) (by rw [live_length])

/-- The elements before the gap go to new storage, whatever it holds behind them. -/
theorem grow_before (e : Element α) (a t : List α) (room : Nat) (G : Cells α) :
    moveAcross e.growHusk a.length 0 0 (live (a ++ t) ++ raw room, raw a.length ++ G) =
      .ok (live (a.map e.growHusk ++ t) ++ raw room, live a ++ G) := by
  have hmove := @moveAcross_spec α [] (live t ++ raw room) (raw a.length) a e.growHusk [] G
    (all_raw _) (raw_length _) 0 0 rfl rfl
  simpa only [live_append, List.append_assoc, List.nil_append] using hmove

/-- The elements behind the gap follow, whatever it was filled with. -/
theorem grow_behind (e : Element α) (a t values : List α) (room rest : Nat) :
    moveAcross e.growHusk t.length a.length (a.length + values.length)
        (live (a.map e.growHusk ++ t) ++ raw room,
          live a ++ (live values ++ (raw t.length ++ raw rest))) =
      .ok (live ((a ++ t).map e.growHusk) ++ raw room,
        live (a ++ (values ++ t)) ++ raw rest) := by
  have hmove := @moveAcross_spec α (live (a.map e.growHusk)) (raw room) (raw t.length) t e.growHusk
    (live (a ++ values)) (raw rest) (all_raw _) (raw_length _) a.length
    (a.length + values.length) (by rw [live_length, List.length_map])
    (by rw [live_length, List.length_append])
  simpa only [live_append, List.append_assoc, List.map_append] using hmove

theorem size_stored (a t : List α) (room : Nat) :
    (stored (a ++ t) room).size = a.length + t.length := List.length_append

theorem exists_split {t : List α} {n : Nat} (h : n ≤ t.length) :
    ∃ m t', t = m ++ t' ∧ t'.length = n :=
  ⟨t.take (t.length - n), t.drop (t.length - n), (List.take_append_drop _ _).symm, by
    rw [List.length_drop]
    omega⟩

theorem roomAfter_grown {size room n : Nat} (h : ¬ n ≤ room) :
    newSize size n = size + n + roomAfter size room n := by
  have := le_newSize size n
  rw [roomAfter, if_neg h]
  omega

/-- The storage that is allocated when `n` elements do not fit, cut where the elements go. -/
theorem grown_storage {a t : List α} {room n : Nat} (h : ¬ n ≤ room) :
    (doAllocate (newSize (a.length + t.length) n) : Cells α) = raw a.length ++ (raw n ++
      (raw t.length ++ raw (roomAfter (a.length + t.length) room n))) := by
  have hsize : newSize (a.length + t.length) n =
      a.length + (n + (t.length + roomAfter (a.length + t.length) room n)) := by
    rw [roomAfter_grown h]
    omega
  rw [doAllocate, hsize, raw_add, raw_add, raw_add]

/-- What the in-place branches leave, with the elements on both sides of the gap in place. -/
theorem stored_gap (a values t : List α) (room : Nat) {n : Nat}
    (hsize : n = a.length + t.length + values.length) :
    (⟨live a ++ (live values ++ (live t ++ raw room)), n⟩ : Vector α) =
      stored (a ++ (values ++ t)) room := by
  apply eq_stored
  · simp only [live_append, List.append_assoc]
  · simp only [hsize, List.length_append]
    omega

theorem doInsertFromIterator_stored (e : Element α) (a t values : List α) (room : Nat) :
    doInsertFromIterator e (stored (a ++ t) room) a.length values =
      .ok (stored (a ++ (values ++ t)) (roomAfter (a.length + t.length) room values.length)) := by
  rw [doInsertFromIterator, stored_room, size_stored, if_pos (Nat.le_add_right _ _)]
  by_cases hempty : values = []
  · rw [if_pos hempty, hempty, roomAfter, List.length_nil, if_pos (Nat.zero_le _)]
    rfl
  rw [if_neg hempty]
  by_cases hfits : values.length ≤ room
  · obtain ⟨r, rfl⟩ := Nat.exists_eq_add_of_le hfits
    simp only [if_pos hfits, Nat.add_sub_cancel_left, roomAfter, stored, raw_add]
    by_cases hshort : values.length < t.length
    · rw [if_pos hshort]
      obtain ⟨m, t, rfl, hlength⟩ := exists_split (Nat.le_of_lt hshort)
      have hpos : 0 < t.length := hlength ▸ List.length_pos_iff.mpr hempty
      obtain ⟨c, L, hL, hlive, hforward, hbackward⟩ := shift_up e a m t (raw r) hpos
      have hcopy := @copyIn_spec α (live a) (live m ++ (live t ++ raw r)) L values false hlive
        (hL.trans hlength) a.length (live_length a)
      have hlast : a.length + (m ++ t).length - values.length = a.length + m.length := by
        rw [List.length_append]
        omega
      rw [hlast, Nat.add_sub_cancel_left, List.length_append, ← Nat.add_assoc, ← hlength, hforward,
        exec_bind_ok, hbackward, exec_bind_ok, hcopy, exec_bind_ok]
      have hstored := stored_gap a values (m ++ t) r
        (n := a.length + m.length + t.length + t.length)
        (by simp only [List.length_append]; omega)
      rw [live_append, List.append_assoc] at hstored
      exact congrArg Except.ok hstored
    · obtain ⟨u, w, rfl, hlength⟩ : ∃ u w, values = u ++ w ∧ u.length = t.length :=
        ⟨values.take t.length, values.drop t.length, (List.take_append_drop _ _).symm,
          List.length_take_of_le (Nat.le_of_not_lt hshort)⟩
      have hroom : (u ++ w).length = w.length + t.length := by
        rw [List.length_append, hlength, Nat.add_comm]
      have hdest : a.length + t.length + (w.length + t.length) - t.length =
          a.length + t.length + w.length := by omega
      obtain ⟨hcopy, hmove⟩ := shift_out e a t w (raw r)
      have hback := @copyInBackward_spec α (live a) (live w ++ (live t ++ raw r))
        (live (t.map e.husk)) u false (all_live _) (by rw [live_length, List.length_map, hlength])
        (a.length + t.length) (by rw [live_length, live_length, List.length_map])
      have hstored := stored_gap a (u ++ w) t r
        (n := a.length + t.length + (w.length + t.length)) (by rw [hroom])
      rw [if_neg hshort, ← hlength, List.drop_left, List.take_left, hlength, hroom, raw_add,
        List.append_assoc, hdest, hcopy, exec_bind_ok, hmove, exec_bind_ok, hback,
        exec_bind_ok]
      rw [live_append, List.append_assoc] at hstored
      exact congrArg Except.ok hstored
  · obtain ⟨rest, hrest⟩ : ∃ rest, rest = roomAfter (a.length + t.length) room values.length :=
      ⟨_, rfl⟩
    have hcopy := @copyIn_spec α (live a) (raw t.length ++ raw rest) (raw values.length) values
      true (all_raw _) (raw_length _) a.length (live_length a)
    rw [if_neg hfits, grown_storage hfits, ← hrest, Nat.add_sub_cancel_left]
    change (moveAcross e.growHusk a.length 0 0 (live (a ++ t) ++ raw room, _) >>= _) = _
    rw [grow_before, exec_bind_ok]
    dsimp only
    rw [hcopy, exec_bind_ok, grow_behind, exec_bind_ok]
    refine (replaceStorage_live (by rw [List.length_map, List.length_append]) room _ _).trans ?_
    exact congrArg Except.ok (eq_stored rfl (by simp only [List.length_append]; omega))

theorem doInsertValues_stored (e : Element α) (a t : List α) (room : Nat) {n : Nat}
    {value : ValueArg α} {x y : α} (hx : value.value (a ++ t) = some x)
    (hy : value.value (a.map e.growHusk ++ t) = some y) :
    doInsertValues e (stored (a ++ t) room) a.length n value =
      .ok (stored (a ++ (List.replicate n (if n ≤ room then x else y) ++ t))
        (roomAfter (a.length + t.length) room n)) := by
  rw [doInsertValues, stored_room, size_stored, if_pos (Nat.le_add_right _ _)]
  by_cases hfits : n ≤ room
  · obtain ⟨r, rfl⟩ := Nat.exists_eq_add_of_le hfits
    simp only [if_pos hfits, Nat.add_sub_cancel_left, roomAfter, stored, raw_add]
    obtain rfl | hpos := Nat.eq_zero_or_pos n
    · rfl
    rw [if_pos hpos, read_value _ hx, exec_bind_ok]
    by_cases hshort : n < t.length
    · rw [if_pos hshort]
      obtain ⟨m, t, rfl, rfl⟩ := exists_split (Nat.le_of_lt hshort)
      obtain ⟨c, L, hL, hlive, hforward, hbackward⟩ := shift_up e a m t (raw r) hpos
      have hcopy := @copyIn_spec α (live a) (live m ++ (live t ++ raw r)) L
        (List.replicate t.length x) false hlive (by rw [hL, List.length_replicate]) a.length
        (live_length a)
      have hlast : a.length + (m ++ t).length - t.length = a.length + m.length := by
        rw [List.length_append]
        omega
      rw [hlast, Nat.add_sub_cancel_left, List.length_append, ← Nat.add_assoc, hforward,
        exec_bind_ok, hbackward, exec_bind_ok, hcopy, exec_bind_ok]
      have hstored := stored_gap a (List.replicate t.length x) (m ++ t) r
        (n := a.length + m.length + t.length + t.length)
        (by simp only [List.length_append, List.length_replicate]; omega)
      rw [live_append m, List.append_assoc] at hstored
      exact congrArg Except.ok hstored
    · obtain ⟨k, rfl⟩ := Nat.exists_eq_add_of_le' (Nat.le_of_not_lt hshort)
      have hdest : a.length + t.length + (k + t.length) - t.length =
          a.length + t.length + (List.replicate k x).length := by
        rw [List.length_replicate]
        omega
      have hlength : (List.replicate k x).length = k := List.length_replicate
      obtain ⟨hcopy, hmove⟩ := shift_out e a t (List.replicate k x) (raw r)
      have hfill := @copyIn_spec α (live a) (live (List.replicate k x) ++ (live t ++ raw r))
        (live (t.map e.husk)) (List.replicate t.length x) false (all_live _)
        (by rw [live_length, List.length_map, List.length_replicate]) a.length (live_length a)
      have hstored := stored_gap a (List.replicate (k + t.length) x) t r
        (n := a.length + t.length + (k + t.length)) (by rw [List.length_replicate])
      rw [hlength] at hcopy
      rw [if_neg hshort, Nat.add_sub_cancel, hdest, raw_add, List.append_assoc, hcopy, exec_bind_ok,
        hmove, exec_bind_ok, hfill, exec_bind_ok]
      rw [Nat.add_comm k, List.replicate_add, live_append, List.append_assoc] at hstored
      rw [Nat.add_comm k, List.replicate_add]
      exact congrArg Except.ok hstored
  · obtain ⟨rest, hrest⟩ : ∃ rest, rest = roomAfter (a.length + t.length) room n := ⟨_, rfl⟩
    have hlength : (List.replicate n y).length = n := List.length_replicate
    have hcopy := @copyIn_spec α (live a) (raw t.length ++ raw rest) (raw n) (List.replicate n y)
      true (all_raw _) (by rw [raw_length, hlength]) a.length (live_length a)
    have hbehind := grow_behind e a t (List.replicate n y) room rest
    rw [hlength] at hbehind
    rw [if_neg hfits, if_neg hfits, grown_storage hfits, ← hrest, Nat.add_sub_cancel_left]
    change (moveAcross e.growHusk a.length 0 0 (live (a ++ t) ++ raw room, _) >>= _) = _
    rw [grow_before, exec_bind_ok]
    dsimp only
    rw [read_value _ hy, exec_bind_ok, hcopy, exec_bind_ok, hbehind, exec_bind_ok]
    refine (replaceStorage_live (by rw [List.length_map, List.length_append]) room _ _).trans ?_
    exact congrArg Except.ok
      (eq_stored rfl (by simp only [List.length_append, List.length_replicate]; omega))

/-- With room the last element is constructed behind the others, and those before it move up. -/
theorem doInsertValue_in_place (e : Element α) (a t : List α) (y : α) (room : Nat)
    {value : ValueArg α} {x : α} (h : value.value (a ++ (t ++ [y])) = some x) :
    doInsertValue e (stored (a ++ (t ++ [y])) (room + 1)) a.length value =
      .ok (stored (a ++ (x :: (t ++ [y]))) room) := by
  have hsize : (stored (a ++ (t ++ [y])) (room + 1)).size = a.length + t.length + 1 := by
    rw [size_stored, length_append_singleton, Nat.add_assoc]
  have hcells : live (a ++ (t ++ [y])) ++ raw (room + 1) =
      live (a ++ t) ++ some y :: none :: raw room := by
    rw [← List.append_assoc, live_snoc]
    rfl
  have hout : moveOut e.husk (live (a ++ t) ++ some y :: none :: raw room) (a.length + t.length) =
      .ok (y, live (a ++ t) ++ some (e.husk y) :: none :: raw room) :=
    moveOut_at e.husk (by rw [live_length, List.length_append])
  have hput : put true ((live (a ++ t) ++ [some (e.husk y)]) ++ none :: raw room)
      (a.length + t.length + 1) y =
      .ok ((live (a ++ t) ++ [some (e.husk y)]) ++ some y :: raw room) :=
    put_at y (by rw [length_snoc, live_length, List.length_append]) rfl
  obtain ⟨L, hL, hlive, hback⟩ := @moveBackward_up α (live a) (some y :: raw room) t e.husk
    [some (e.husk y)] (all_singleton _) (Nat.succ_pos 0) (a.length + t.length)
    (a.length + t.length + 1) (by rw [live_length]) rfl
  obtain ⟨left, rfl⟩ := List.length_eq_one_iff.mp hL
  obtain ⟨z, rfl⟩ := Option.isSome_iff_exists.mp
    (Option.isNone_eq_false_iff.mp (hlive left List.mem_cons_self))
  have hdestroy : destroy (live a ++ some z :: (live t ++ some y :: raw room)) a.length =
      .ok (live a ++ none :: (live t ++ some y :: raw room)) := destroy_at (live_length a)
  have hconstruct : put true (live a ++ none :: (live t ++ some y :: raw room)) a.length x =
      .ok (live a ++ some x :: (live t ++ some y :: raw room)) := put_at x (live_length a) rfl
  rw [doInsertValue, if_pos (size_ne_capacity _ _), hsize, if_pos (by omega), Nat.add_sub_cancel,
    Nat.add_sub_cancel_left]
  change (value.read (live (a ++ (t ++ [y])) ++ raw (room + 1)) >>= fun x => _) = _
  rw [read_value _ h, exec_bind_ok]
  change (moveOut e.husk (live (a ++ (t ++ [y])) ++ raw (room + 1)) _ >>= _) = _
  rw [hcells, hout, exec_bind_ok]
  dsimp only
  simp only [live_append, List.append_assoc, List.cons_append, List.nil_append] at hput hback ⊢
  rw [hput, exec_bind_ok, hback, exec_bind_ok, hdestroy, exec_bind_ok, hconstruct, exec_bind_ok]
  refine congrArg Except.ok (eq_stored ?_ ?_)
  · simp only [live, List.map_append, List.map_cons, List.map_nil, List.append_assoc,
      List.cons_append, List.nil_append]
  · simp only [List.length_append, List.length_cons, List.length_nil]
    omega

theorem doInsertValue_grown (e : Element α) (a t : List α) {value : ValueArg α} {x : α}
    (h : value.value (a ++ t) = some x) :
    doInsertValue e (stored (a ++ t) 0) a.length value =
      .ok (stored (a ++ (x :: t)) (roomAfter (a.length + t.length) 0 1)) := by
  have hbehind := grow_behind e a t [x] 0 (roomAfter (a.length + t.length) 0 1)
  have hput : put true (doAllocate (getNewCapacity (a.length + t.length))) a.length x =
      .ok (raw a.length ++ (live [x] ++
        (raw t.length ++ raw (roomAfter (a.length + t.length) 0 1)))) := by
    rw [← newSize_one, grown_storage (Nat.not_succ_le_zero 0)]
    exact put_at x (raw_length _) rfl
  have hfull : (stored (a ++ t) 0).size = (stored (a ++ t) 0).capacity := by
    rw [stored_capacity]
    rfl
  rw [doInsertValue, if_neg (not_not_intro hfull), size_stored, Nat.add_sub_cancel_left]
  change (value.read (live (a ++ t) ++ raw 0) >>= _) = _
  rw [read_value _ h, exec_bind_ok, hput, exec_bind_ok]
  change (moveAcross e.growHusk a.length 0 0 (live (a ++ t) ++ raw 0, _) >>= _) = _
  rw [grow_before, exec_bind_ok]
  dsimp only
  rw [List.length_singleton] at hbehind
  rw [hbehind, exec_bind_ok]
  refine (replaceStorage_live (by rw [List.length_map, List.length_append]) 0 _ _).trans ?_
  exact congrArg Except.ok
    (eq_stored rfl (by simp only [List.length_append, List.length_cons]; omega))

theorem roomAfter_succ (size room : Nat) : roomAfter size (room + 1) 1 = room := by
  rw [roomAfter, if_pos (Nat.succ_le_succ (Nat.zero_le room)), Nat.add_sub_cancel]

theorem roomAfter_full (size : Nat) : roomAfter size 0 1 = getNewCapacity size - (size + 1) := by
  rw [roomAfter, if_neg (Nat.not_succ_le_zero 0), newSize_one]

theorem pushBack_stored (e : Element α) (xs : List α) (room : Nat) {value : ValueArg α} {x y : α}
    (hx : value.value xs = some x) (hy : value.value (xs.map e.growHusk) = some y) :
    pushBack e (stored xs room) value =
      .ok (stored (xs ++ [if 1 ≤ room then x else y]) (roomAfter xs.length room 1)) := by
  rw [pushBack, stored_capacity]
  cases room with
  | zero =>
    have hfull : ¬ (stored xs 0).size < xs.length + 0 := Nat.lt_irrefl _
    rw [if_neg hfull, if_neg (Nat.not_succ_le_zero 0), doInsertValueEnd_stored e xs 0 hy,
      roomAfter_full]
  | succ room =>
    have hroom : (stored xs (room + 1)).size < xs.length + (room + 1) :=
      Nat.lt_add_of_pos_right (Nat.succ_pos room)
    rw [if_pos hroom, if_pos (Nat.succ_le_succ (Nat.zero_le room)),
      constructAtEnd_stored xs room hx, roomAfter_succ]

theorem insert_stored (e : Element α) (a t : List α) (room : Nat) {value : ValueArg α} {x : α}
    (h : value.value (a ++ t) = some x) :
    insert e (stored (a ++ t) room) a.length value =
      .ok (stored (a ++ (x :: t)) (roomAfter (a.length + t.length) room 1)) := by
  rw [insert, size_stored, if_pos (Nat.le_add_right _ _), stored_capacity, List.length_append]
  cases room with
  | zero => rw [if_pos (Or.inl (Nat.add_zero _).symm), doInsertValue_grown e a t h]
  | succ room =>
    rw [roomAfter_succ]
    obtain rfl | ⟨t, y, rfl⟩ := List.eq_nil_or_concat' t
    · have hend : ¬ (a.length = a.length + (room + 1) ∨ a.length ≠ a.length) := by omega
      rw [List.length_nil, Nat.add_zero, if_neg hend, constructAtEnd_stored _ room h,
        List.append_nil]
    · rw [length_append_singleton, if_pos (Or.inr (by omega)),
        doInsertValue_in_place e a t y room h]

theorem doInsertFromInput_stored (e : Element α) (a t values : List α) (room : Nat) :
    ∃ room', doInsertFromInput e (stored (a ++ t) room) a.length values =
      .ok (stored (a ++ (values ++ t)) room') := by
  induction values generalizing a room with
  | nil => exact ⟨room, rfl⟩
  | cons x rest ih =>
    obtain ⟨room', hrest⟩ := ih (a ++ [x]) (roomAfter (a.length + t.length) room 1)
    refine ⟨room', ?_⟩
    rw [length_append_singleton, List.append_assoc, List.append_assoc] at hrest
    rw [doInsertFromInput, insert_stored e a t room rfl, exec_bind_ok]
    exact hrest

theorem reserve_stored (e : Element α) (xs : List α) (room n : Nat) :
    reserve e (stored xs room) n = .ok (stored xs (max room (n - xs.length))) := by
  rw [reserve, stored_capacity]
  split
  · rw [doGrow_stored e xs room (by omega), Nat.max_eq_right (by omega)]
  · rw [Nat.max_eq_left (by omega)]

/-! ## Erasure -/

theorem eraseRange_stored (e : Element α) (a d t : List α) (room : Nat) :
    eraseRange e (stored (a ++ (d ++ t)) room) a.length (a.length + d.length) =
      .ok (stored (a ++ t) (room + d.length)) := by
  have hsize : (stored (a ++ (d ++ t)) room).size = a.length + d.length + t.length := by
    rw [size_stored, List.length_append, Nat.add_assoc]
  rw [eraseRange, hsize, if_pos ⟨Nat.le_add_right _ _, Nat.le_add_right _ _⟩]
  by_cases hd : d = []
  · subst hd
    rw [List.length_nil, Nat.add_zero, if_neg (not_not_intro rfl)]
    rfl
  have hpos : 0 < d.length := List.length_pos_iff.mpr hd
  obtain ⟨L, hL, hlive, hmove⟩ := @moveForward_down α (live a) (raw room) t e.husk (live d)
    (all_live d) (by rwa [live_length]) (a.length + d.length) a.length (live_length a)
    (by rw [live_length])
  have hdestroy := @destroyAll_spec α (live (a ++ t)) (raw room) L hlive (a.length + t.length)
    (by rw [live_length, List.length_append])
  rw [live_length] at hL
  have hleft : a.length + d.length + t.length - (a.length + t.length) = d.length := by omega
  rw [if_pos (by omega), Nat.add_sub_cancel_left]
  dsimp only
  rw [hleft]
  change (moveForward false e.husk t.length (a.length + d.length) a.length
    (live (a ++ (d ++ t)) ++ raw room) >>= _) = _
  rw [hL, live_append, List.append_assoc] at hdestroy
  simp only [live_append, List.append_assoc] at hmove ⊢
  rw [hmove, exec_bind_ok, hdestroy, exec_bind_ok]
  refine congrArg Except.ok (eq_stored ?_ ?_)
  · rw [← raw_add, Nat.add_comm room, live_append, List.append_assoc]
  · rw [List.length_append]
    omega

theorem erase_stored (e : Element α) (a t : List α) (x : α) (room : Nat) :
    erase e (stored (a ++ (x :: t)) room) a.length = .ok (stored (a ++ t) (room + 1)) := by
  have hsize : (stored (a ++ (x :: t)) room).size = a.length + 1 + t.length := by
    rw [size_stored, List.length_cons]
    omega
  have hcells : live (a ++ (x :: t)) ++ raw room =
      live a ++ (live [x] ++ (live t ++ raw room)) := by
    rw [← List.singleton_append, live_append, live_append, List.append_assoc, List.append_assoc]
  have hdestroy : ∀ z, destroy (live (a ++ t) ++ some z :: raw room)
      (a.length + 1 + t.length - 1) = .ok (live (a ++ t) ++ none :: raw room) := fun z =>
    destroy_at (by rw [live_length, List.length_append]; omega)
  have hstored : (⟨live (a ++ t) ++ none :: raw room, a.length + 1 + t.length - 1⟩ : Vector α) =
      stored (a ++ t) (room + 1) := eq_stored rfl (by rw [List.length_append]; omega)
  rw [erase, hsize, if_pos (by omega), Nat.add_sub_cancel_left]
  by_cases hmore : a.length + 1 < a.length + 1 + t.length
  · obtain ⟨L, hL, hlive, hmove⟩ := @moveForward_down α (live a) (raw room) t e.husk (live [x])
      (all_live _) (Nat.succ_pos 0) (a.length + 1) a.length (live_length a) rfl
    obtain ⟨left, rfl⟩ := List.length_eq_one_iff.mp hL
    obtain ⟨z, rfl⟩ := Option.isSome_iff_exists.mp
      (Option.isNone_eq_false_iff.mp (hlive left List.mem_cons_self))
    rw [← List.append_assoc (live a) (live t), ← live_append, List.singleton_append] at hmove
    rw [if_pos hmore]
    change (moveForward false e.husk t.length (a.length + 1) a.length
      (live (a ++ (x :: t)) ++ raw room) >>= _) = _
    rw [hcells, hmove, exec_bind_ok]
    dsimp only
    rw [hdestroy, exec_bind_ok, hstored]
  · obtain rfl : t = [] := List.eq_nil_of_length_eq_zero (by omega)
    have hdestroy' := hdestroy x
    rw [List.append_nil] at hdestroy'
    rw [if_neg hmore, exec_bind_ok]
    change (destroy (live (a ++ [x]) ++ raw room) _ >>= _) = _
    rw [live_snoc, hdestroy', exec_bind_ok, ← hstored, List.append_nil]

theorem eraseUnsorted_last (e : Element α) (a : List α) (x : α) (room : Nat) :
    eraseUnsorted e (stored (a ++ [x]) room) a.length = .ok (stored a (room + 1)) := by
  have hsize : (stored (a ++ [x]) room).size = a.length + 1 := size_stored a [x] room
  have hout : moveOut e.husk (live a ++ some x :: raw room) a.length =
      .ok (x, live a ++ some (e.husk x) :: raw room) := moveOut_at e.husk (live_length a)
  have hput : put false (live a ++ some (e.husk x) :: raw room) a.length x =
      .ok (live a ++ some x :: raw room) := put_at x (live_length a) rfl
  have hdestroy : destroy (live a ++ some x :: raw room) a.length =
      .ok (live a ++ none :: raw room) := destroy_at (live_length a)
  rw [eraseUnsorted, hsize, if_pos (Nat.lt_succ_self _), Nat.add_sub_cancel]
  change (moveOut e.husk (live (a ++ [x]) ++ raw room) a.length >>= _) = _
  rw [live_snoc, hout, exec_bind_ok]
  dsimp only
  rw [hput, exec_bind_ok, hdestroy, exec_bind_ok]
  rfl

theorem eraseUnsorted_stored (e : Element α) (a t : List α) (x y : α) (room : Nat) :
    eraseUnsorted e (stored (a ++ (x :: (t ++ [y]))) room) a.length =
      .ok (stored (a ++ (y :: t)) (room + 1)) := by
  have hsize : (stored (a ++ (x :: (t ++ [y]))) room).size = a.length + t.length + 1 + 1 := by
    rw [size_stored, List.length_cons, length_append_singleton]
    omega
  have hcells : live (a ++ (x :: (t ++ [y]))) ++ raw room =
      live (a ++ (x :: t)) ++ some y :: raw room := by
    rw [← List.cons_append, ← List.append_assoc, live_snoc]
  have hlength : (live (a ++ (x :: t))).length = a.length + t.length + 1 := by
    rw [live_length, List.length_append, List.length_cons, Nat.add_assoc]
  have hlength' : (live (a ++ (y :: t))).length = a.length + t.length + 1 := by
    rw [live_length, List.length_append, List.length_cons, Nat.add_assoc]
  have hmid : ∀ (w : α) (B : Cells α),
      live (a ++ (w :: t)) ++ B = live a ++ some w :: (live t ++ B) := by
    intro w B
    rw [live_append, List.append_assoc]
    rfl
  have hout : moveOut e.husk (live (a ++ (x :: t)) ++ some y :: raw room)
      (a.length + t.length + 1) = .ok (y, live (a ++ (x :: t)) ++ some (e.husk y) :: raw room) :=
    moveOut_at e.husk hlength
  have hput : put false (live a ++ some x :: (live t ++ some (e.husk y) :: raw room)) a.length y =
      .ok (live a ++ some y :: (live t ++ some (e.husk y) :: raw room)) :=
    put_at y (live_length a) rfl
  have hdestroy : destroy (live (a ++ (y :: t)) ++ some (e.husk y) :: raw room)
      (a.length + t.length + 1) = .ok (live (a ++ (y :: t)) ++ none :: raw room) :=
    destroy_at hlength'
  rw [eraseUnsorted, hsize, if_pos (by omega), Nat.add_sub_cancel]
  change (moveOut e.husk (live (a ++ (x :: (t ++ [y]))) ++ raw room) _ >>= _) = _
  rw [hcells, hout, exec_bind_ok]
  dsimp only
  rw [hmid, hput, exec_bind_ok, ← hmid, hdestroy, exec_bind_ok]
  refine congrArg Except.ok (eq_stored rfl ?_)
  rw [List.length_append, List.length_cons, Nat.add_assoc]

theorem clear_stored (xs : List α) (room : Nat) :
    clear (stored xs room) = .ok (stored [] (room + xs.length)) := by
  have hdestroy := @destroyAll_spec α [] (raw room) (live xs) (all_live xs) 0 rfl
  rw [live_length, ← raw_add] at hdestroy
  rw [clear]
  change (destroyAll xs.length 0 ([] ++ (live xs ++ raw room)) >>= _) = _
  rw [hdestroy, exec_bind_ok, Nat.add_comm]
  rfl

end Vector

end EARanges.Eastl
