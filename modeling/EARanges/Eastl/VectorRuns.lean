import EARanges.Eastl.Vector

/-!
# Runs of vector operations

Beside each operation stands what it is for, on the list of the elements. The two agree but for
one thing: an argument that refers to an element of the vector is read after that element has been
moved away, in the operations that grow the storage first.
-/
namespace EARanges.Eastl
open EARanges.Support EARanges.Support.Cells EARanges.Eastl.Vector

variable {α : Type}

inductive Operation (α : Type) where
  | reserve (n : Nat)
  | pushBack (value : ValueArg α)
  | popBack
  | insert (position : Nat) (value : ValueArg α)
  | insertValues (position n : Nat) (value : ValueArg α)
  | insertRange (position : Nat) (values : List α)
  | erase (position : Nat)
  | eraseRange (first last : Nat)
  | eraseUnsorted (position : Nat)
  | clear

namespace Operation

def run (e : Element α) (v : Vector α) : Operation α → Exec (Vector α)
  | .reserve n => v.reserve e n
  | .pushBack value => v.pushBack e value
  | .popBack => v.popBack
  | .insert position value => v.insert e position value
  | .insertValues position n value => v.doInsertValues e position n value
  | .insertRange position values => v.doInsertFromIterator e position values
  | .erase position => v.erase e position
  | .eraseRange first last => v.eraseRange e first last
  | .eraseUnsorted position => v.eraseUnsorted e position
  | .clear => v.clear

/-- `xs` with `new` for what stands from `first` to `last`. -/
def splice (xs : List α) (first last : Nat) (new : List α) : List α :=
  xs.take first ++ (new ++ xs.drop last)

/-- The elements afterwards; none where the operation is not allowed. -/
def meaning (xs : List α) : Operation α → Option (List α)
  | .reserve _ => some xs
  | .pushBack value => (value.value xs).map fun x => xs ++ [x]
  | .popBack => if xs = [] then none else some xs.dropLast
  | .insert position value =>
    if position ≤ xs.length then
      (value.value xs).map fun x => splice xs position position [x]
    else none
  | .insertValues position n value =>
    if position ≤ xs.length then
      (value.value xs).map fun x => splice xs position position (List.replicate n x)
    else none
  | .insertRange position values =>
    if position ≤ xs.length then some (splice xs position position values) else none
  | .erase position =>
    if position < xs.length then some (splice xs position (position + 1) []) else none
  | .eraseRange first last =>
    if first ≤ last ∧ last ≤ xs.length then some (splice xs first last []) else none
  | .eraseUnsorted position =>
    if position < xs.length then xs.getLast?.map fun y => (xs.set position y).dropLast else none
  | .clear => some []

/-- The room afterwards. -/
def room (size room : Nat) : Operation α → Nat
  | .reserve n => max room (n - size)
  | .pushBack _ | .insert _ _ => roomAfter size room 1
  | .insertValues _ n _ => roomAfter size room n
  | .insertRange _ values => roomAfter size room values.length
  | .popBack | .erase _ | .eraseUnsorted _ => room + 1
  | .eraseRange first last => room + (last - first)
  | .clear => room + size

/-- The argument is read as it was when the elements before the position were moved away: it is
not one of these, or a move leaves it as it is. -/
def Intact (e : Element α) (xs : List α) (position : Nat) : ValueArg α → Prop
  | .outside _ => True
  | .own i => position ≤ i ∨ ∀ x, xs[i]? = some x → e.growHusk x = x

/-- `DoInsertValueEnd` and the branch of `DoInsertValues` that grows move the elements first. -/
def Undisturbed (e : Element α) (xs : List α) (room : Nat) : Operation α → Prop
  | .pushBack value => 1 ≤ room ∨ Intact e xs xs.length value
  | .insertValues position n value => n ≤ room ∨ Intact e xs position value
  | _ => True

theorem exists_split {xs : List α} {position : Nat} (h : position ≤ xs.length) :
    ∃ a t, xs = a ++ t ∧ a.length = position :=
  ⟨xs.take position, xs.drop position, (List.take_append_drop _ _).symm,
    List.length_take_of_le h⟩

theorem splice_at (a d t new : List α) :
    splice (a ++ (d ++ t)) a.length (a.length + d.length) new = a ++ (new ++ t) := by
  rw [splice, List.take_left, ← List.length_append, ← List.append_assoc a d t, List.drop_left]

theorem splice_insert (a t new : List α) :
    splice (a ++ t) a.length a.length new = a ++ (new ++ t) := splice_at a [] t new

theorem value_moved (e : Element α) {value : ValueArg α} {a t : List α} {x : α}
    (h : value.value (a ++ t) = some x) :
    ∃ y, value.value (a.map e.growHusk ++ t) = some y ∧
      (y = x ↔ Intact e (a ++ t) a.length value) := by
  cases value with
  | outside z => exact ⟨z, rfl, fun _ => trivial, fun _ => Option.some.inj h⟩
  | own i =>
    change (a ++ t)[i]? = some x at h
    obtain hi | hi := Nat.lt_or_ge i a.length
    · refine ⟨e.growHusk x, ?_, fun hy => Or.inr fun z hz => ?_, fun hy => ?_⟩
      · change (a.map e.growHusk ++ t)[i]? = _
        rw [List.getElem?_append_left hi] at h
        rw [List.getElem?_append_left (by rwa [List.length_map]), List.getElem?_map, h]
        rfl
      · rwa [← Option.some.inj (h.symm.trans hz)]
      · exact hy.resolve_left (Nat.not_le.mpr hi) x h
    · refine ⟨x, ?_, fun _ => Or.inl hi, fun _ => rfl⟩
      change (a.map e.growHusk ++ t)[i]? = _
      rw [List.getElem?_append_right hi] at h
      rw [List.getElem?_append_right (by rwa [List.length_map]), List.length_map, h]

theorem replicate_gap_eq (a t : List α) {n room : Nat} {x y : α} :
    a ++ (List.replicate n (if n ≤ room then x else y) ++ t) = a ++ (List.replicate n x ++ t) ↔
      n ≤ room ∨ y = x := by
  by_cases h : n ≤ room
  · rw [if_pos h]
    exact ⟨fun _ => Or.inl h, fun _ => rfl⟩
  · have hn : n ≠ 0 := by omega
    rw [if_neg h, List.append_cancel_left_eq, List.append_cancel_right_eq,
      List.replicate_right_inj hn, or_iff_right h]

/-- Without a fault, and as meant if and only if its argument is undisturbed. -/
def StepsTo (e : Element α) (op : Operation α) (xs : List α) (room : Nat) (xs' : List α) : Prop :=
  ∃ ys, op.run e (stored xs room) = .ok (stored ys (op.room xs.length room)) ∧
    (ys = xs' ↔ op.Undisturbed e xs room)

theorem stepsTo_of_eq {e : Element α} {op : Operation α} {xs xs' : List α} {room : Nat}
    (hrun : op.run e (stored xs room) = .ok (stored xs' (op.room xs.length room)))
    (h : op.Undisturbed e xs room) : op.StepsTo e xs room xs' :=
  ⟨xs', hrun, fun _ => h, fun _ => rfl⟩

section
variable (e : Element α) {xs xs' : List α} (room : Nat) {value : ValueArg α}
  {position first last n : Nat} {values : List α}

theorem pushBack_steps (h : (pushBack value).meaning xs = some xs') :
    (pushBack value).StepsTo e xs room xs' := by
  obtain ⟨x, hx, rfl⟩ := Option.map_eq_some_iff.mp h
  have hx' := hx
  rw [← List.append_nil xs] at hx'
  obtain ⟨y, hy, hsame⟩ := value_moved e hx'
  rw [List.append_nil] at hy hsame
  have hgap : xs ++ (List.replicate 1 (if 1 ≤ room then x else y) ++ []) =
      xs ++ (List.replicate 1 x ++ []) ↔ 1 ≤ room ∨ y = x := replicate_gap_eq xs []
  simp only [List.append_nil, List.replicate_one] at hgap
  exact ⟨_, pushBack_stored e xs room hx hy, hgap.trans (or_congr_right hsame)⟩

theorem insert_steps (h : (insert position value).meaning xs = some xs') :
    (insert position value).StepsTo e xs room xs' := by
  obtain ⟨hposition, h⟩ := Option.ite_none_right_eq_some.mp h
  obtain ⟨x, hx, rfl⟩ := Option.map_eq_some_iff.mp h
  obtain ⟨a, t, rfl, rfl⟩ := exists_split hposition
  rw [splice_insert]
  refine stepsTo_of_eq ?_ trivial
  rw [Operation.room, List.length_append]
  exact insert_stored e a t room hx

theorem insertValues_steps (h : (insertValues position n value).meaning xs = some xs') :
    (insertValues position n value).StepsTo e xs room xs' := by
  obtain ⟨hposition, h⟩ := Option.ite_none_right_eq_some.mp h
  obtain ⟨x, hx, rfl⟩ := Option.map_eq_some_iff.mp h
  obtain ⟨a, t, rfl, rfl⟩ := exists_split hposition
  obtain ⟨y, hy, hsame⟩ := value_moved e hx
  rw [splice_insert]
  refine ⟨_, ?_, (replicate_gap_eq a t).trans (or_congr_right hsame)⟩
  rw [Operation.room, List.length_append]
  exact doInsertValues_stored e a t room hx hy

theorem insertRange_steps (h : (insertRange position values).meaning xs = some xs') :
    (insertRange position values).StepsTo e xs room xs' := by
  obtain ⟨hposition, h⟩ := Option.ite_none_right_eq_some.mp h
  obtain ⟨a, t, rfl, rfl⟩ := exists_split hposition
  obtain rfl := Option.some.inj h
  rw [splice_insert]
  refine stepsTo_of_eq ?_ trivial
  rw [Operation.room, List.length_append]
  exact doInsertFromIterator_stored e a t values room

theorem popBack_steps (h : popBack.meaning xs = some xs') : popBack.StepsTo e xs room xs' := by
  obtain ⟨hxs, h⟩ := Option.ite_none_left_eq_some.mp h
  obtain ⟨ys, x, rfl⟩ := (List.eq_nil_or_concat' xs).resolve_left hxs
  rw [List.dropLast_concat] at h
  obtain rfl := Option.some.inj h
  exact stepsTo_of_eq (popBack_stored ys x room) trivial

theorem eraseRange_steps (h : (eraseRange first last).meaning xs = some xs') :
    (eraseRange first last).StepsTo e xs room xs' := by
  obtain ⟨⟨hle, hlast⟩, h⟩ := Option.ite_none_right_eq_some.mp h
  obtain ⟨b, t, rfl, rfl⟩ := exists_split hlast
  obtain ⟨a, d, rfl, rfl⟩ := exists_split hle
  obtain rfl := Option.some.inj h
  rw [List.append_assoc, List.length_append, splice_at, List.nil_append]
  refine stepsTo_of_eq ?_ trivial
  rw [Operation.room, Nat.add_sub_cancel_left]
  exact eraseRange_stored e a d t room

theorem erase_steps (h : (erase position).meaning xs = some xs') :
    (erase position).StepsTo e xs room xs' := by
  obtain ⟨hposition, h⟩ := Option.ite_none_right_eq_some.mp h
  obtain ⟨a, t, rfl, rfl⟩ := exists_split (Nat.le_of_lt hposition)
  rw [List.length_append] at hposition
  obtain ⟨x, t, rfl⟩ := List.exists_cons_of_length_pos (by omega : 0 < t.length)
  have hsplice : splice (a ++ (x :: t)) a.length (a.length + 1) [] = a ++ t :=
    splice_at a [x] t []
  rw [hsplice] at h
  obtain rfl := Option.some.inj h
  exact stepsTo_of_eq (erase_stored e a t x room) trivial

theorem eraseUnsorted_steps (h : (eraseUnsorted position).meaning xs = some xs') :
    (eraseUnsorted position).StepsTo e xs room xs' := by
  obtain ⟨hposition, h⟩ := Option.ite_none_right_eq_some.mp h
  obtain ⟨a, t, rfl, rfl⟩ := exists_split (Nat.le_of_lt hposition)
  rw [List.length_append] at hposition
  obtain ⟨x, t, rfl⟩ := List.exists_cons_of_length_pos (by omega : 0 < t.length)
  obtain ⟨y, hy, rfl⟩ := Option.map_eq_some_iff.mp h
  refine stepsTo_of_eq ?_ trivial
  have hset : (a ++ (x :: t)).set a.length y = a ++ (y :: t) := by
    rw [List.set_append_right _ _ (Nat.le_refl _), Nat.sub_self, List.set_cons_zero]
  rw [hset]
  obtain rfl | ⟨t, z, rfl⟩ := List.eq_nil_or_concat' t
  · rw [List.dropLast_concat]
    exact eraseUnsorted_last e a x room
  · have hconcat : ∀ w, a ++ (w :: (t ++ [z])) = (a ++ (w :: t)) ++ [z] := fun w => by
      rw [List.append_assoc, List.cons_append]
    rw [hconcat, List.getLast?_concat] at hy
    obtain rfl := Option.some.inj hy
    rw [hconcat z, List.dropLast_concat]
    exact eraseUnsorted_stored e a t x z room

theorem steps {op : Operation α} (h : op.meaning xs = some xs') : op.StepsTo e xs room xs' := by
  cases op with
  | reserve n =>
    obtain rfl := Option.some.inj h
    exact stepsTo_of_eq (reserve_stored e xs room n) trivial
  | pushBack value => exact pushBack_steps e room h
  | popBack => exact popBack_steps e room h
  | insert position value => exact insert_steps e room h
  | insertValues position n value => exact insertValues_steps e room h
  | insertRange position values => exact insertRange_steps e room h
  | erase position => exact erase_steps e room h
  | eraseRange first last => exact eraseRange_steps e room h
  | eraseUnsorted position => exact eraseUnsorted_steps e room h
  | clear =>
    obtain rfl := Option.some.inj h
    exact stepsTo_of_eq (clear_stored xs room) trivial

end

/-- The most that the operation asks the storage to hold. -/
def need (xs' : List α) : Operation α → Nat
  | .reserve n => n
  | _ => 2 * xs'.length

theorem newSize_le {size n : Nat} (hn : 0 < n) : newSize size n ≤ 2 * (size + n) := by
  rw [newSize, getNewCapacity]
  split <;> split <;> omega

theorem insertion_le {size room n : Nat} :
    size + n + roomAfter size room n ≤ max (size + room) (2 * (size + n)) := by
  by_cases h : n ≤ room
  · rw [roomAfter, if_pos h]
    omega
  · rw [← roomAfter_grown h]
    exact (newSize_le (by omega)).trans (Nat.le_max_right _ _)

theorem le_insertion {size room n : Nat} : size + room ≤ size + n + roomAfter size room n := by
  by_cases h : n ≤ room
  · rw [roomAfter, if_pos h]
    omega
  · have := le_newSize size n
    rw [← roomAfter_grown h]
    omega

theorem splice_insert_length {xs : List α} {position : Nat} (h : position ≤ xs.length)
    (new : List α) : (splice xs position position new).length = xs.length + new.length := by
  rw [splice, List.length_append, List.length_append, List.length_take_of_le h, List.length_drop]
  omega

theorem splice_erase_length {xs : List α} {first last : Nat} (h : first ≤ last)
    (hlast : last ≤ xs.length) : (splice xs first last []).length + (last - first) = xs.length := by
  rw [splice, List.nil_append, List.length_append, List.length_take_of_le (h.trans hlast),
    List.length_drop]
  omega

/-- The capacity never shrinks, and grows only as far as the operation needs. -/
theorem capacity_bounds {op : Operation α} {xs xs' : List α} (room : Nat)
    (h : op.meaning xs = some xs') :
    xs.length + room ≤ xs'.length + op.room xs.length room ∧
      xs'.length + op.room xs.length room ≤ max (xs.length + room) (op.need xs') := by
  have hinsert : ∀ n, xs'.length = xs.length + n →
      xs.length + room ≤ xs'.length + roomAfter xs.length room n ∧
        xs'.length + roomAfter xs.length room n ≤ max (xs.length + room) (2 * xs'.length) :=
    fun n hn => hn ▸ ⟨le_insertion, insertion_le⟩
  have herase : ∀ n, xs'.length + n = xs.length →
      xs.length + room ≤ xs'.length + (room + n) ∧
        xs'.length + (room + n) ≤ max (xs.length + room) (2 * xs'.length) := by omega
  cases op with
  | reserve n =>
    obtain rfl := Option.some.inj h
    simp only [Operation.room, need]
    omega
  | pushBack value =>
    obtain ⟨x, _, rfl⟩ := Option.map_eq_some_iff.mp h
    exact hinsert 1 (length_append_singleton xs x)
  | popBack =>
    obtain ⟨hxs, h⟩ := Option.ite_none_left_eq_some.mp h
    obtain rfl := Option.some.inj h
    have hpos := List.length_pos_iff.mpr hxs
    exact herase 1 (by rw [List.length_dropLast]; omega)
  | insert position value =>
    obtain ⟨hposition, h⟩ := Option.ite_none_right_eq_some.mp h
    obtain ⟨x, _, rfl⟩ := Option.map_eq_some_iff.mp h
    exact hinsert 1 (splice_insert_length hposition [x])
  | insertValues position n value =>
    obtain ⟨hposition, h⟩ := Option.ite_none_right_eq_some.mp h
    obtain ⟨x, _, rfl⟩ := Option.map_eq_some_iff.mp h
    exact hinsert n (by rw [splice_insert_length hposition, List.length_replicate])
  | insertRange position values =>
    obtain ⟨hposition, h⟩ := Option.ite_none_right_eq_some.mp h
    obtain rfl := Option.some.inj h
    exact hinsert values.length (splice_insert_length hposition values)
  | erase position =>
    obtain ⟨hposition, h⟩ := Option.ite_none_right_eq_some.mp h
    obtain rfl := Option.some.inj h
    have hlength := splice_erase_length (Nat.le_succ position) hposition
    rw [Nat.succ_eq_add_one, Nat.add_sub_cancel_left] at hlength
    exact herase 1 hlength
  | eraseRange first last =>
    obtain ⟨⟨hle, hlast⟩, h⟩ := Option.ite_none_right_eq_some.mp h
    obtain rfl := Option.some.inj h
    exact herase (last - first) (splice_erase_length hle hlast)
  | eraseUnsorted position =>
    obtain ⟨hposition, h⟩ := Option.ite_none_right_eq_some.mp h
    obtain ⟨y, _, rfl⟩ := Option.map_eq_some_iff.mp h
    exact herase 1 (by rw [List.length_dropLast, List.length_set]; omega)
  | clear =>
    obtain rfl := Option.some.inj h
    exact herase xs.length (Nat.zero_add _)

end Operation

/-- Runs in which every argument is undisturbed and no step needs more than the limit. -/
inductive Runs (e : Element α) (limit : Nat) :
    List (Operation α) → List α × Nat → List α × Nat → Prop where
  | done (s : List α × Nat) : Runs e limit [] s s
  | step {op : Operation α} {ops : List (Operation α)} {xs xs' : List α} {room : Nat}
      {t : List α × Nat} : op.meaning xs = some xs' → op.Undisturbed e xs room →
      op.need xs' ≤ limit → Runs e limit ops (xs', op.room xs.length room) t →
      Runs e limit (op :: ops) (xs, room) t

/-- One operation after the other. -/
def runAll (e : Element α) : List (Operation α) → Vector α → Exec (Vector α)
  | [], v => .ok v
  | op :: ops, v => do
    let v ← op.run e v
    runAll e ops v

theorem Runs.refines {e : Element α} {limit : Nat} {ops : List (Operation α)}
    {s t : List α × Nat} (h : Runs e limit ops s t) :
    runAll e ops (stored s.1 s.2) = .ok (stored t.1 t.2) ∧
      s.1.length + s.2 ≤ t.1.length + t.2 ∧
      t.1.length + t.2 ≤ max (s.1.length + s.2) limit := by
  induction h with
  | done s => exact ⟨rfl, Nat.le_refl _, Nat.le_max_left _ _⟩
  | @step op ops xs xs' room t hmeaning hundisturbed hneed _ ih =>
    obtain ⟨ys, hrun, hys⟩ := Operation.steps e room hmeaning
    obtain rfl := hys.mpr hundisturbed
    obtain ⟨hrest, hkept, hcapacity⟩ := ih
    obtain ⟨hgrows, hstep⟩ := Operation.capacity_bounds room hmeaning
    dsimp only at hkept hcapacity ⊢
    refine ⟨?_, by omega, by omega⟩
    rw [runAll, hrun, exec_bind_ok]
    exact hrest

theorem runAll_append (e : Element α) (ops : List (Operation α)) (op : Operation α)
    (v : Vector α) : runAll e (ops ++ [op]) v = runAll e ops v >>= fun v => op.run e v := by
  induction ops generalizing v with
  | nil =>
    change (op.run e v >>= fun v => runAll e [] v) = op.run e v
    cases op.run e v <;> rfl
  | cons first ops ih =>
    rw [List.cons_append, runAll, runAll]
    cases first.run e v with
    | error stop => rfl
    | ok v => exact ih v

/-- The vector holds what the operations mean, in storage that never shrinks nor grows beyond the
limit, and in the end gives it back with nothing alive in it. -/
theorem vector_runs {e : Element α} {limit : Nat} {ops : List (Operation α)} {zs xs : List α}
    {room₀ room : Nat} (h : Runs e limit ops (zs, room₀) (xs, room)) :
    ∃ v : Vector α, runAll e ops (stored zs room₀) = .ok v ∧ v.size = xs.length ∧
      (∀ i x, xs[i]? = some x → Cells.read v.cells i = .ok x) ∧
      v.size ≤ v.capacity ∧ (stored zs room₀).capacity ≤ v.capacity ∧
      v.capacity ≤ max (stored zs room₀).capacity limit ∧ v.destruct = .ok () := by
  obtain ⟨hrun, hkept, hlimit⟩ := h.refines
  refine ⟨stored xs room, hrun, rfl, fun i x hx => ?_, ?_, ?_, ?_, destruct_live rfl room⟩
  · exact read_value _ (show (ValueArg.own i).value xs = some x from hx)
  · rw [stored_capacity]
    exact Nat.le_add_right _ _
  · rwa [stored_capacity, stored_capacity]
  · rwa [stored_capacity, stored_capacity]

/-- Elements that a move leaves zero. -/
def zeroed : Element Nat := ⟨fun _ => 0, true⟩

theorem vector_runs_zeroed :
    ∃ v : Vector Nat, runAll zeroed [.pushBack (.outside 3), .pushBack (.outside 5),
        .insert 0 (.own 1), .eraseRange 1 2, .insertRange 1 [8, 9]] (stored [] 0) = .ok v ∧
      v.size = 4 ∧ (∀ i x, [5, 8, 9, 5][i]? = some x → Cells.read v.cells i = .ok x) ∧
      v.size ≤ v.capacity ∧ (stored ([] : List Nat) 0).capacity ≤ v.capacity ∧
      v.capacity ≤ max (stored ([] : List Nat) 0).capacity 8 ∧ v.destruct = .ok () := by
  have hruns : Runs zeroed 8 [.pushBack (.outside 3), .pushBack (.outside 5), .insert 0 (.own 1),
      .eraseRange 1 2, .insertRange 1 [8, 9]] ([], 0) ([5, 8, 9, 5], 0) := by
    refine .step rfl (Or.inr trivial) (Nat.le_of_ble_eq_true rfl) ?_
    refine .step rfl (Or.inr trivial) (Nat.le_of_ble_eq_true rfl) ?_
    refine .step rfl trivial (Nat.le_of_ble_eq_true rfl) ?_
    refine .step rfl trivial (Nat.le_of_ble_eq_true rfl) ?_
    exact .step rfl trivial (Nat.le_of_ble_eq_true rfl) (.done _)
  exact vector_runs hruns

/-- After any such run from the empty vector one more operation does not fault, and does what is
meant if and only if its argument is undisturbed. -/
theorem own_arguments {e : Element α} {limit : Nat} {ops : List (Operation α)} {op : Operation α}
    {xs xs' : List α} {room : Nat} (h : Runs e limit ops ([], 0) (xs, room))
    (hmeaning : op.meaning xs = some xs') :
    ∃ ys, runAll e (ops ++ [op]) empty = .ok (stored ys (op.room xs.length room)) ∧
      (ys = xs' ↔ op.Undisturbed e xs room) := by
  obtain ⟨ys, hrun, hys⟩ := Operation.steps e room hmeaning
  refine ⟨ys, ?_, hys⟩
  have hall : runAll e ops empty = .ok (stored xs room) := h.refines.1
  rw [runAll_append, hall, exec_bind_ok, hrun]

theorem own_arguments_zeroed :
    ∃ ys, runAll zeroed [.pushBack (.outside 7), .pushBack (.own 0)] empty =
        .ok (stored ys 0) ∧ ys ≠ [7, 7] := by
  have hruns : Runs zeroed 2 [.pushBack (.outside 7)] ([], 0) ([7], 0) :=
    .step rfl (Or.inr trivial) (Nat.le_of_ble_eq_true rfl) (.done _)
  obtain ⟨ys, hrun, hys⟩ := own_arguments hruns
    (show (Operation.pushBack (.own 0)).meaning [7] = some [7, 7] from rfl)
  refine ⟨ys, hrun, fun h => ?_⟩
  obtain hroom | hlast | hsame := hys.mp h
  · exact absurd hroom (by decide)
  · exact absurd hlast (by decide)
  · exact absurd (hsame 7 rfl) (by decide)

/-- Inserted one by one or as a block, the elements come to stand in the same places. -/
theorem input_agrees (e : Element α) {xs : List α} {position : Nat} (room : Nat)
    (values : List α) (h : position ≤ xs.length) :
    ∃ v w : Vector α, (stored xs room).doInsertFromInput e position values = .ok v ∧
      (stored xs room).doInsertFromIterator e position values = .ok w ∧ v.size = w.size ∧
      ∀ i x, (Operation.splice xs position position values)[i]? = some x →
        Cells.read v.cells i = .ok x ∧ Cells.read w.cells i = .ok x := by
  obtain ⟨a, t, rfl, rfl⟩ := Operation.exists_split h
  obtain ⟨room', hinput⟩ := doInsertFromInput_stored e a t values room
  rw [Operation.splice_insert]
  refine ⟨_, _, hinput, doInsertFromIterator_stored e a t values room, rfl, fun i x hx => ?_⟩
  have hvalue : (ValueArg.own i).value (a ++ (values ++ t)) = some x := hx
  exact ⟨read_value _ hvalue, read_value _ hvalue⟩

theorem input_agrees_zeroed :
    ∃ v w : Vector Nat, (stored [1, 2] 0).doInsertFromInput zeroed 1 [8, 9] = .ok v ∧
      (stored [1, 2] 0).doInsertFromIterator zeroed 1 [8, 9] = .ok w ∧ v.size = w.size ∧
      ∀ i x, [1, 8, 9, 2][i]? = some x →
        Cells.read v.cells i = .ok x ∧ Cells.read w.cells i = .ok x :=
  input_agrees zeroed 0 [8, 9] (by decide)

/-- `actions::erase` on a vector. -/
theorem eraseRange_action (e : Element α) {c c' : Iterator.BaseRange α} {first last : Nat}
    (room : Nat) (h : Action.erase c first last = .ok c') :
    (stored c.list room).eraseRange e first last =
      .ok (stored c'.list (room + (last - first))) := by
  rw [Action.erase] at h
  split at h
  next hbounds =>
    obtain rfl := Except.ok.inj h
    have hmeaning : (Operation.eraseRange first last).meaning c.list =
        some (c.list.take first ++ c.list.drop last) := if_pos hbounds
    obtain ⟨ys, hrun, hys⟩ := Operation.steps e room hmeaning
    rwa [hys.mpr trivial] at hrun
  next => cases h

end EARanges.Eastl
