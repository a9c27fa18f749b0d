import EARanges.Support.Exec
import Mathlib.Data.List.Induction

/-!
# Storage whose cells hold an object or none

Objects are constructed in raw cells, and read, assigned to and destroyed in the others; anything
else faults, and so does giving storage back while an object in it is alive. The loops that fill,
move and destroy ranges of cells each have a rule that says what they make of a storage cut into
the ranges they work on.
-/
namespace EARanges.Support

variable {α : Type}

abbrev Cells (α : Type) := List (Option α)

namespace Cells

/-- Cells that hold these objects. -/
def live (xs : List α) : Cells α := xs.map some

def raw (n : Nat) : Cells α := List.replicate n none

/-- Every cell is raw, or every cell holds an object. -/
def All (isRaw : Bool) (cs : Cells α) : Prop := ∀ cell ∈ cs, cell.isNone = isRaw

def read (cs : Cells α) (i : Nat) : Exec α :=
  match cs[i]? with
  | some (some x) => .ok x
  | _ => .error .fault

/-- Constructs an object in a raw cell, or assigns to one that is there. -/
def put (isRaw : Bool) (cs : Cells α) (i : Nat) (x : α) : Exec (Cells α) :=
  match cs[i]? with
  | some cell => if cell.isNone = isRaw then .ok (cs.set i (some x)) else .error .fault
  | none => .error .fault

/-- `T(std::move(cs[i]))` without a place for it. -/
def moveOut (husk : α → α) (cs : Cells α) (i : Nat) : Exec (α × Cells α) := do
  let x ← read cs i
  let cs ← put false cs i (husk x)
  .ok (x, cs)

def destroy (cs : Cells α) (i : Nat) : Exec (Cells α) :=
  match cs[i]? with
  | some (some _) => .ok (cs.set i none)
  | _ => .error .fault

/-- Gives the storage back. -/
def release (cs : Cells α) : Exec Unit := if cs.all (·.isNone) then .ok () else .error .fault

/-- Copies from outside to the cells from `dest` on. -/
def copyIn (isRaw : Bool) : List α → Nat → Cells α → Exec (Cells α)
  | [], _, cs => .ok cs
  | x :: xs, dest, cs => do
    let cs ← put isRaw cs dest x
    copyIn isRaw xs (dest + 1) cs

/-- Copies from outside, the last one first, to the cells that end at `destLast`. -/
def copyInBackward (isRaw : Bool) : List α → Nat → Cells α → Exec (Cells α)
  | [], _, cs => .ok cs
  | x :: rest, destLast, cs => do
    let cs ← put isRaw cs (destLast - 1) x
    copyInBackward isRaw rest (destLast - 1) cs

/-- Moves `n` objects from `first` on to the cells from `dest` on. -/
def moveForward (isRaw : Bool) (husk : α → α) : Nat → Nat → Nat → Cells α → Exec (Cells α)
  | 0, _, _, cs => .ok cs
  | n + 1, first, dest, cs => do
    let (x, cs) ← moveOut husk cs first
    let cs ← put isRaw cs dest x
    moveForward isRaw husk n (first + 1) (dest + 1) cs

/-- Moves `n` objects that end at `last`, the last one first, to the cells that end at
`destLast`. -/
def moveBackward (isRaw : Bool) (husk : α → α) : Nat → Nat → Nat → Cells α → Exec (Cells α)
  | 0, _, _, cs => .ok cs
  | n + 1, last, destLast, cs => do
    let (x, cs) ← moveOut husk cs (last - 1)
    let cs ← put isRaw cs (destLast - 1) x
    moveBackward isRaw husk n (last - 1) (destLast - 1) cs

/-- Moves `n` objects to other storage. -/
def moveAcross (husk : α → α) :
    Nat → Nat → Nat → Cells α × Cells α → Exec (Cells α × Cells α)
  | 0, _, _, s => .ok s
  | n + 1, first, dest, (cs, new) => do
    let (x, cs) ← moveOut husk cs first
    let new ← put true new dest x
    moveAcross husk n (first + 1) (dest + 1) (cs, new)

def destroyAll : Nat → Nat → Cells α → Exec (Cells α)
  | 0, _, cs => .ok cs
  | n + 1, first, cs => do
    let cs ← destroy cs first
    destroyAll n (first + 1) cs

/-! ## One cell -/

section
variable {A B : Cells α} {i : Nat} {x y : α} {cell : Option α} {isRaw : Bool} {husk : α → α}

theorem getElem?_at (hi : A.length = i) : (A ++ cell :: B)[i]? = some cell := by
  rw [← hi, List.getElem?_append_right (Nat.le_refl _), Nat.sub_self, List.getElem?_cons_zero]

theorem set_at (cell' : Option α) (hi : A.length = i) :
    (A ++ cell :: B).set i cell' = A ++ cell' :: B := by
  rw [← hi, List.set_append_right _ _ (Nat.le_refl _), Nat.sub_self, List.set_cons_zero]

theorem read_at (hi : A.length = i) : read (A ++ some x :: B) i = .ok x := by
  rw [read, getElem?_at hi]

theorem put_at (x : α) (hi : A.length = i) (hcell : cell.isNone = isRaw) :
    put isRaw (A ++ cell :: B) i x = .ok (A ++ some x :: B) := by
  rw [put, getElem?_at hi]
  dsimp only
  rw [if_pos hcell, set_at _ hi]

theorem moveOut_at (husk : α → α) (hi : A.length = i) :
    moveOut husk (A ++ some x :: B) i = .ok (x, A ++ some (husk x) :: B) := by
  have hput : put false (A ++ some x :: B) i (husk x) = .ok (A ++ some (husk x) :: B) :=
    put_at (husk x) hi rfl
  rw [moveOut, read_at hi, exec_bind_ok, hput, exec_bind_ok]

theorem destroy_at (hi : A.length = i) :
    destroy (A ++ some x :: B) i = .ok (A ++ none :: B) := by
  rw [destroy, getElem?_at hi]
  dsimp only
  rw [set_at _ hi]

end

/-! ## Ranges of cells -/

theorem live_length (xs : List α) : (live xs).length = xs.length := List.length_map some

theorem raw_length (n : Nat) : (raw n : Cells α).length = n := List.length_replicate

theorem live_append (xs ys : List α) : live (xs ++ ys) = live xs ++ live ys := List.map_append

theorem raw_add (m n : Nat) : (raw (m + n) : Cells α) = raw m ++ raw n :=
  List.replicate_add m n none

theorem all_live (xs : List α) : All false (live xs) := by
  intro cell hcell
  obtain ⟨x, _, rfl⟩ := List.mem_map.mp hcell
  rfl

theorem all_raw (n : Nat) : All true (raw n : Cells α) := by
  intro cell hcell
  rw [List.eq_of_mem_replicate hcell]
  rfl

theorem All.append {isRaw : Bool} {S T : Cells α} (h : All isRaw S) (h' : All isRaw T) :
    All isRaw (S ++ T) := fun cell hcell =>
  (List.mem_append.mp hcell).elim (h cell) (h' cell)

theorem all_singleton (x : α) : All false [some x] := all_live [x]

theorem all_cons {isRaw : Bool} {cell : Option α} {T : Cells α} (h : All isRaw (cell :: T)) :
    cell.isNone = isRaw ∧ All isRaw T := List.forall_mem_cons.mp h

theorem release_raw (n : Nat) : release (raw n : Cells α) = .ok () := by
  rw [release, if_pos]
  exact List.all_eq_true.mpr (all_raw n)

section
variable {A B T : Cells α} {xs : List α} {isRaw : Bool} {husk : α → α}

theorem length_snoc (A : Cells α) (cell : Option α) : (A ++ [cell]).length = A.length + 1 := by
  rw [List.length_append, List.length_singleton]

theorem copyIn_spec (hT : All isRaw T) (hlength : T.length = xs.length) {dest : Nat}
    (hdest : A.length = dest) :
    copyIn isRaw xs dest (A ++ (T ++ B)) = .ok (A ++ (live xs ++ B)) := by
  induction xs generalizing A T dest with
  | nil =>
    rw [List.eq_nil_of_length_eq_zero hlength]
    rfl
  | cons x xs ih =>
    obtain ⟨cell, T, rfl⟩ := List.exists_cons_of_length_eq_add_one hlength
    obtain ⟨hcell, hT⟩ := all_cons hT
    have hdest' : (A ++ [some x]).length = dest + 1 := by rw [length_snoc, hdest]
    have hrest := ih hT (Nat.succ.inj hlength) hdest'
    rw [copyIn, List.cons_append, put_at x hdest hcell, exec_bind_ok]
    rwa [List.append_assoc, List.append_assoc] at hrest

theorem exists_snoc {T : Cells α} (h : 0 < T.length) : ∃ T' cell, T = T' ++ [cell] := by
  obtain rfl | hsnoc := List.eq_nil_or_concat' T
  · exact absurd h (Nat.lt_irrefl 0)
  · exact hsnoc

theorem copyInBackward_spec (hT : All isRaw T) (hlength : T.length = xs.length) {destLast : Nat}
    (hlast : A.length + T.length = destLast) :
    copyInBackward isRaw xs.reverse destLast (A ++ (T ++ B)) = .ok (A ++ (live xs ++ B)) := by
  induction xs using List.reverseRecOn generalizing T B destLast with
  | nil =>
    rw [List.eq_nil_of_length_eq_zero hlength]
    rfl
  | append_singleton xs x ih =>
    rw [List.length_append, List.length_singleton] at hlength
    obtain ⟨T, cell, rfl⟩ := exists_snoc (by omega : 0 < T.length)
    rw [length_snoc] at hlength hlast
    have hcell : cell.isNone = isRaw := hT cell (List.mem_append_right T List.mem_cons_self)
    have hT' : All isRaw T := fun c hc => hT c (List.mem_append_left _ hc)
    have hat : (A ++ T).length = destLast - 1 := by
      rw [List.length_append]
      omega
    have hput := put_at (B := B) x hat hcell
    rw [List.append_assoc, List.append_assoc] at hput
    have hrest := ih (B := some x :: B) hT' (by omega) (by omega : _ = destLast - 1)
    rw [List.reverse_append, List.reverse_singleton, List.singleton_append, copyInBackward,
      List.append_assoc, List.singleton_append, hput, exec_bind_ok, hrest, live_append,
      List.append_assoc]
    rfl

/-- To raw cells behind the objects. -/
theorem moveForward_spec {M : Cells α} (hT : All isRaw T) (hlength : T.length = xs.length)
    {first dest : Nat} (hfirst : A.length = first) (hdest : first + xs.length + M.length = dest) :
    moveForward isRaw husk xs.length first dest (A ++ (live xs ++ (M ++ (T ++ B)))) =
      .ok (A ++ (live (xs.map husk) ++ (M ++ (live xs ++ B)))) := by
  induction xs generalizing A M T first dest with
  | nil =>
    rw [List.eq_nil_of_length_eq_zero hlength]
    rfl
  | cons x xs ih =>
    obtain ⟨cell, T, rfl⟩ := List.exists_cons_of_length_eq_add_one hlength
    obtain ⟨hcell, hT⟩ := all_cons hT
    rw [List.length_cons] at hdest
    have hat : (A ++ (some (husk x) :: (live xs ++ M))).length = dest := by
      simp only [List.length_append, List.length_cons, live_length]
      omega
    have hout := moveOut_at (B := live xs ++ (M ++ (cell :: T ++ B))) (x := x) husk hfirst
    have hput := put_at (B := T ++ B) x hat hcell
    have hfirst' : (A ++ [some (husk x)]).length = first + 1 := by rw [length_snoc, hfirst]
    have hdest' : first + 1 + xs.length + (M ++ [some x]).length = dest + 1 := by
      rw [length_snoc]
      omega
    have hrest := ih hT (Nat.succ.inj hlength) hfirst' hdest'
    simp only [List.append_assoc, List.cons_append, List.nil_append] at hout hput hrest
    rw [List.length_cons, moveForward]
    change (moveOut husk (A ++ (some x :: (live xs ++ (M ++ (cell :: T ++ B))))) first >>= _) = _
    rw [List.cons_append, hout, exec_bind_ok]
    dsimp only
    rw [hput, exec_bind_ok, hrest]
    rfl

/-- Down over the objects of `D`, of which some are left behind, or what was moved from. -/
theorem moveForward_down {D : Cells α} (hD : All false D) (hpos : 0 < D.length) {first dest : Nat}
    (hdest : A.length = dest) (hfirst : dest + D.length = first) :
    ∃ L : Cells α, L.length = D.length ∧ All false L ∧
      moveForward false husk xs.length first dest (A ++ (D ++ (live xs ++ B))) =
        .ok (A ++ (live xs ++ (L ++ B))) := by
  induction xs generalizing A D first dest with
  | nil => exact ⟨D, rfl, hD, rfl⟩
  | cons x xs ih =>
    obtain ⟨cell, D, rfl⟩ := List.exists_cons_of_length_pos hpos
    obtain ⟨hcell, hD⟩ := all_cons hD
    have hat : (A ++ cell :: D).length = first := by
      rw [List.length_append]
      omega
    have hout := moveOut_at (B := live xs ++ B) (x := x) husk hat
    have hput := put_at (B := D ++ (some (husk x) :: (live xs ++ B))) x hdest hcell
    have hdest' : (A ++ [some x]).length = dest + 1 := by rw [length_snoc, hdest]
    have hfirst' : dest + 1 + (D ++ [some (husk x)]).length = first + 1 := by
      rw [length_snoc, ← hfirst, List.length_cons]
      omega
    obtain ⟨L, hlength, hL, hrest⟩ := ih (hD.append (all_singleton (husk x)))
      (by rw [length_snoc]; omega) hdest' hfirst'
    refine ⟨L, hlength.trans (length_snoc D _), hL, ?_⟩
    simp only [List.append_assoc, List.cons_append, List.nil_append] at hout hput hrest
    rw [List.length_cons, moveForward]
    change (moveOut husk (A ++ (cell :: D ++ (some x :: (live xs ++ B)))) first >>= _) = _
    rw [List.cons_append, hout, exec_bind_ok]
    dsimp only
    rw [hput, exec_bind_ok, hrest]
    rfl

/-- Up over the objects of `D`. -/
theorem moveBackward_up {D : Cells α} (hD : All false D) (hpos : 0 < D.length)
    {last destLast : Nat} (hlast : A.length + xs.length = last)
    (hdest : last + D.length = destLast) :
    ∃ L : Cells α, L.length = D.length ∧ All false L ∧
      moveBackward false husk xs.length last destLast (A ++ (live xs ++ (D ++ B))) =
        .ok (A ++ (L ++ (live xs ++ B))) := by
  induction xs using List.reverseRecOn generalizing D B last destLast with
  | nil => exact ⟨D, rfl, hD, rfl⟩
  | append_singleton xs x ih =>
    obtain ⟨D, cell, rfl⟩ := exists_snoc hpos
    rw [List.length_append, List.length_singleton] at hlast
    rw [length_snoc] at hdest
    have hcell : cell.isNone = false := hD cell (List.mem_append_right D List.mem_cons_self)
    have hD' : All false D := fun c hc => hD c (List.mem_append_left _ hc)
    have hat : (A ++ live xs).length = last - 1 := by
      rw [List.length_append, live_length]
      omega
    have hat' : (A ++ (live xs ++ (some (husk x) :: D))).length = destLast - 1 := by
      simp only [List.length_append, List.length_cons, live_length]
      omega
    have hout := moveOut_at (B := D ++ (cell :: B)) (x := x) husk hat
    have hput := put_at (B := B) x hat' hcell
    obtain ⟨L, hlength, hL, hrest⟩ := ih (B := some x :: B) (D := some (husk x) :: D)
      (List.forall_mem_cons.mpr ⟨rfl, hD'⟩) (Nat.succ_pos _) (by omega : _ = last - 1)
      (by rw [List.length_cons]; omega : _ = destLast - 1)
    refine ⟨L, by rw [hlength, length_snoc, List.length_cons], hL, ?_⟩
    simp only [List.append_assoc, List.cons_append] at hout hput hrest
    rw [List.length_append, List.length_singleton, moveBackward, live_append]
    simp only [List.append_assoc, List.singleton_append, live, List.map_cons, List.map_nil]
    simp only [live] at hout hput hrest
    rw [hout, exec_bind_ok, hput, exec_bind_ok, hrest]

theorem moveAcross_spec {A' B' : Cells α} (hT : All true T) (hlength : T.length = xs.length)
    {first dest : Nat} (hfirst : A.length = first) (hdest : A'.length = dest) :
    moveAcross husk xs.length first dest (A ++ (live xs ++ B), A' ++ (T ++ B')) =
      .ok (A ++ (live (xs.map husk) ++ B), A' ++ (live xs ++ B')) := by
  induction xs generalizing A A' T first dest with
  | nil =>
    rw [List.eq_nil_of_length_eq_zero hlength]
    rfl
  | cons x xs ih =>
    obtain ⟨cell, T, rfl⟩ := List.exists_cons_of_length_eq_add_one hlength
    obtain ⟨hcell, hT⟩ := all_cons hT
    have hfirst' : (A ++ [some (husk x)]).length = first + 1 := by rw [length_snoc, hfirst]
    have hdest' : (A' ++ [some x]).length = dest + 1 := by rw [length_snoc, hdest]
    have hrest := ih hT (Nat.succ.inj hlength) hfirst' hdest'
    simp only [List.append_assoc, List.cons_append, List.nil_append] at hrest
    rw [List.length_cons, moveAcross]
    change (moveOut husk (A ++ (some x :: (live xs ++ B))) first >>= _) = _
    rw [moveOut_at husk hfirst, exec_bind_ok, List.cons_append]
    dsimp only
    rw [put_at x hdest hcell, exec_bind_ok, hrest]
    rfl

theorem destroyAll_spec {L : Cells α} (hL : All false L) {first : Nat} (hfirst : A.length = first) :
    destroyAll L.length first (A ++ (L ++ B)) = .ok (A ++ (raw L.length ++ B)) := by
  induction L generalizing A first with
  | nil => rfl
  | cons cell L ih =>
    obtain ⟨hcell, hrestLive⟩ := all_cons hL
    obtain ⟨x, rfl⟩ := Option.isSome_iff_exists.mp (Option.isNone_eq_false_iff.mp hcell)
    have hfirst' : (A ++ [none]).length = first + 1 := by rw [length_snoc, hfirst]
    have hrest := ih hrestLive hfirst'
    simp only [List.append_assoc, List.cons_append, List.nil_append] at hrest
    rw [List.length_cons, destroyAll, List.cons_append, destroy_at hfirst, exec_bind_ok, hrest]
    rfl

end

end Cells

end EARanges.Support
