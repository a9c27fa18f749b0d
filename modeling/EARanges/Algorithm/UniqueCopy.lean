import EARanges.Algorithm.AdjacentRemoveIf
import Mathlib.Data.List.Destutter

/-!
# `unique_copy` and `unique`

algorithm/unique_copy.hpp has three implementations: for an input whose elements can be read
once, for a forward input, and for an output that can be read back. They are given the cells of
the output and the position in them. algorithm/unique.hpp calls `unique` of EASTL/algorithm.h,
which hands `move(pred)` and `move(proj)` to `adjacent_find` and goes on calling the objects
they were moved from.
-/
namespace EARanges.Algorithm
open EARanges.Support

variable {α κ : Type}

/-! ## The algorithms -/

section
variable (pred : κ → κ → Bool) (proj : α → κ) (l : List α)

/-- The loop that keeps a copy of the last element written. -/
def savedValueLoop : Nat → Nat → α → List α → Nat → Exec (Nat × List α × Nat)
  | 0, _, _, _, _ => .error .fuel
  | fuel + 1, first, value, cells, out => do
    let first ← incr l first
    if first = l.length then .ok (first, cells, out)
    else
      let x ← deref l first
      if !pred (proj value) (proj x) then
        let cells ← assign cells out x
        let out ← incr cells out
        savedValueLoop fuel first x cells out
      else savedValueLoop fuel first value cells out

/-- `unique_copy_impl` for `input_iterator_tag`, `false_type`. -/
def uniqueCopySavedValue (cells : List α) (out : Nat) : Exec (Nat × List α × Nat) :=
  if 0 ≠ l.length then do
    let value ← deref l 0
    let cells ← assign cells out value
    let out ← incr cells out
    savedValueLoop pred proj l l.length 0 value cells out
  else .ok (0, cells, out)

/-- The loop that keeps an iterator of the last element written. -/
def savedIteratorLoop : Nat → Nat → Nat → List α → Nat → Exec (Nat × List α × Nat)
  | 0, _, _, _, _ => .error .fuel
  | fuel + 1, first, tmp, cells, out => do
    let first ← incr l first
    if first = l.length then .ok (first, cells, out)
    else
      let x ← deref l first
      let y ← deref l tmp
      if !pred (proj y) (proj x) then
        let cells ← assign cells out x
        let out ← incr cells out
        savedIteratorLoop fuel first first cells out
      else savedIteratorLoop fuel first tmp cells out

/-- `unique_copy_impl` for `forward_iterator_tag`, `false_type`. -/
def uniqueCopySavedIterator (cells : List α) (out : Nat) : Exec (Nat × List α × Nat) :=
  if 0 ≠ l.length then do
    let x ← deref l 0
    let cells ← assign cells out x
    let out ← incr cells out
    savedIteratorLoop pred proj l l.length 0 0 cells out
  else .ok (0, cells, out)

/-- The loop that reads the last element written back; `out` is its position. -/
def readBackLoop : Nat → Nat → List α → Nat → Exec (Nat × List α × Nat)
  | 0, _, _, _ => .error .fuel
  | fuel + 1, first, cells, out => do
    let first ← incr l first
    if first = l.length then
      let out ← incr cells out
      .ok (first, cells, out)
    else
      let x ← deref l first
      let y ← deref cells out
      if !pred (proj y) (proj x) then
        let out ← incr cells out
        let cells ← assign cells out x
        readBackLoop fuel first cells out
      else readBackLoop fuel first cells out

/-- `unique_copy_impl` for `input_iterator_tag`, `true_type`. -/
def uniqueCopyReadBack (cells : List α) (out : Nat) : Exec (Nat × List α × Nat) :=
  if 0 ≠ l.length then do
    let x ← deref l 0
    let cells ← assign cells out x
    readBackLoop pred proj l l.length 0 cells out
  else .ok (0, cells, out)

/-- `unique_copy`, for an input and an output that are forward iterators or not. -/
def uniqueCopy (forwardIn forwardOut : Bool) (cells : List α) (out : Nat) :
    Exec (Nat × List α × Nat) :=
  if forwardOut then uniqueCopyReadBack pred proj l cells out
  else if forwardIn then uniqueCopySavedIterator pred proj l cells out
  else uniqueCopySavedValue pred proj l cells out

end

/-- `invoke(pred, invoke(proj, x), invoke(proj, y))` for objects that have been moved from. -/
def invokeMoved (pred : κ → κ → Exec Bool) (proj : α → Exec κ) (x y : α) : Exec Bool := do
  let kx ← proj x
  let ky ← proj y
  pred kx ky

/-- The loop of `unique`, which compares with the moved objects. -/
def uniqueLoop (pred : κ → κ → Exec Bool) (proj : α → Exec κ) :
    Nat → List α → Nat → Nat → Exec (List α × Nat)
  | 0, _, _, _ => .error .fuel
  | fuel + 1, l, dest, first =>
    if first = l.length then do
      let dest ← incr l dest
      .ok (l, dest)
    else do
      let x ← deref l dest
      let y ← deref l first
      let related ← invokeMoved pred proj x y
      if !related then
        let dest ← incr l dest
        let l ← assign l dest y
        let first ← incr l first
        uniqueLoop pred proj fuel l dest first
      else
        let first ← incr l first
        uniqueLoop pred proj fuel l dest first

/-- `unique`. `movedPred` and `movedProj` are what is left of `pred` and `proj` when they have
been moved from: a call of it may answer differently, or not be allowed. -/
def unique (pred : κ → κ → Bool) (proj : α → κ) (movedPred : κ → κ → Exec Bool)
    (movedProj : α → Exec κ) (l : List α) : Exec (List α × Nat) := do
  let first ← adjacentFind pred proj l
  if first ≠ l.length then
    let dest := first
    let first ← incr l first
    uniqueLoop movedPred movedProj l.length l dest first
  else .ok (l, first)

/-! ## What is written -/

def Unrelated (rel : α → α → Bool) (x y : α) : Prop := rel x y = false

instance (rel : α → α → Bool) : DecidableRel (Unrelated rel) := fun x y =>
  inferInstanceAs (Decidable (rel x y = false))

/-- The first element, and then every element not related to the last one taken. -/
def uniqued (rel : α → α → Bool) (l : List α) : List α := l.destutter (Unrelated rel)

/-- What follows `x`, if `x` is the last element taken. -/
def uniquedFrom (rel : α → α → Bool) (x : α) (l : List α) : List α :=
  (l.destutter' (Unrelated rel) x).tail

variable {rel : α → α → Bool} {x y : α} {l l' : List α}

theorem uniquedFrom_related (h : rel x y = true) :
    uniquedFrom rel x (y :: l) = uniquedFrom rel x l := by
  have hnot : ¬Unrelated rel x y := by
    rw [Unrelated, h]
    exact Bool.noConfusion
  rw [uniquedFrom, List.destutter'_cons_neg l hnot, uniquedFrom]

theorem destutter'_eq_cons (rel : α → α → Bool) (x : α) (l : List α) :
    l.destutter' (Unrelated rel) x = x :: uniquedFrom rel x l := by
  induction l with
  | nil => rfl
  | cons y l ih =>
    cases hrel : rel x y with
    | false => rw [uniquedFrom, List.destutter'_cons_pos l hrel, List.tail_cons]
    | true =>
      have hnot : ¬Unrelated rel x y := by
        rw [Unrelated, hrel]
        exact Bool.noConfusion
      rw [uniquedFrom_related hrel, List.destutter'_cons_neg l hnot, ih]

theorem uniqued_cons (rel : α → α → Bool) (x : α) (l : List α) :
    uniqued rel (x :: l) = x :: uniquedFrom rel x l := destutter'_eq_cons rel x l

theorem uniquedFrom_unrelated (h : rel x y = false) :
    uniquedFrom rel x (y :: l) = y :: uniquedFrom rel y l := by
  rw [uniquedFrom, List.destutter'_cons_pos l h, List.tail_cons, destutter'_eq_cons]

theorem uniquedFrom_head (h : uniquedFrom rel x l = y :: l') : rel x y = false := by
  induction l with
  | nil => cases h
  | cons z l ih =>
    cases hrel : rel x z with
    | true => exact ih (by rwa [uniquedFrom_related hrel] at h)
    | false =>
      rw [uniquedFrom_unrelated hrel] at h
      rwa [← (List.cons.inj h).1]

/-- The cells once `written` stands in those from `out` on. -/
def overwrite (cells : List α) (out : Nat) (written : List α) : List α :=
  cells.take out ++ written ++ cells.drop (out + written.length)

theorem overwrite_nil (cells : List α) (out : Nat) : overwrite cells out [] = cells := by
  rw [overwrite, List.append_nil]
  exact List.take_append_drop out cells

theorem overwrite_cons {cells : List α} {out : Nat} (h : out < cells.length) (x : α)
    (written : List α) :
    overwrite cells out (x :: written) = overwrite (cells.set out x) (out + 1) written := by
  have htake : (cells.set out x).take (out + 1) = cells.take out ++ [x] := by
    rw [List.take_add_one, List.take_set_of_le (Nat.le_refl _),
      List.getElem?_set_self h]
    rfl
  rw [overwrite, overwrite, htake, List.drop_set_of_lt (by omega), List.length_cons,
    List.append_assoc (cells.take out) [x], List.singleton_append, Nat.add_assoc,
    Nat.add_comm 1]

/-! ## The three implementations -/

section
variable {pred : κ → κ → Bool} {proj : α → κ} {a rest cells : List α} {fuel out : Nat} {value : α}

theorem savedValueLoop_eq (hl : l = a ++ x :: rest) (hfuel : rest.length < fuel)
    (hroom : out + (uniquedFrom (projected pred proj) value rest).length ≤ cells.length) :
    savedValueLoop pred proj l fuel a.length value cells out =
      .ok (l.length, overwrite cells out (uniquedFrom (projected pred proj) value rest),
        out + (uniquedFrom (projected pred proj) value rest).length) := by
  induction rest generalizing a x fuel value cells out with
  | nil =>
    obtain ⟨fuel, rfl⟩ : ∃ n, fuel = n + 1 := ⟨fuel - 1, by omega⟩
    have hend : a.length + 1 = l.length := by rw [hl, List.length_append, List.length_singleton]
    rw [savedValueLoop, incr_ok (by omega), exec_bind_ok, if_pos hend, hend]
    exact congrArg (fun cells => Except.ok (l.length, cells, out)) (overwrite_nil cells out).symm
  | cons y rest ih =>
    obtain ⟨fuel, rfl⟩ : ∃ n, fuel = n + 1 := ⟨fuel - 1, by omega⟩
    have hnext : a.length + 1 = (a ++ [x]).length := by rw [List.length_append]; rfl
    have hl' : l = (a ++ [x]) ++ y :: rest := by rw [hl, List.append_assoc]; rfl
    have hlength := congrArg List.length hl'
    rw [List.length_append, List.length_cons, ← hnext] at hlength
    have hread : deref l (a.length + 1) = .ok y := by rw [hnext, hl', deref_append]
    rw [savedValueLoop, incr_ok (by omega), exec_bind_ok, if_neg (by omega), hread, exec_bind_ok]
    cases hrel : projected pred proj value y with
    | true =>
      have htest : pred (proj value) (proj y) = true := hrel
      rw [uniquedFrom_related hrel] at hroom ⊢
      rw [if_neg (by simp [htest]), hnext]
      exact ih hl' (Nat.lt_of_succ_lt_succ hfuel) hroom
    | false =>
      have htest : pred (proj value) (proj y) = false := hrel
      rw [uniquedFrom_unrelated hrel] at hroom ⊢
      rw [List.length_cons] at hroom ⊢
      have hout : out < cells.length := by omega
      have hout' : out < (cells.set out y).length := by rwa [List.length_set]
      rw [if_pos (by simp [htest]), assign_eq hout, exec_bind_ok, incr_ok hout', exec_bind_ok,
        hnext, ih hl' (Nat.lt_of_succ_lt_succ hfuel) (by rw [List.length_set]; omega),
        overwrite_cons hout, Nat.add_assoc, Nat.add_comm 1]

/-- The iterator that is kept stands on the value that is. -/
theorem savedIteratorLoop_eq {first tmp : Nat} (htmp : l[tmp]? = some value) :
    savedIteratorLoop pred proj l fuel first tmp cells out =
      savedValueLoop pred proj l fuel first value cells out := by
  induction fuel generalizing first tmp value cells out with
  | zero => rfl
  | succ fuel ih =>
    rw [savedIteratorLoop, savedValueLoop]
    refine exec_bind_congr fun first _ => ?_
    split
    · rfl
    · refine exec_bind_congr fun x hx => ?_
      rw [deref_of_some htmp, exec_bind_ok]
      split
      · exact exec_bind_congr fun cells _ => exec_bind_congr fun out _ => ih (get_of_deref hx)
      · exact ih htmp

/-- The position that is read back is one behind, and holds the value that is kept. -/
theorem readBackLoop_eq {first : Nat} (hcell : cells[out]? = some value) :
    readBackLoop pred proj l fuel first cells out =
      savedValueLoop pred proj l fuel first value cells (out + 1) := by
  induction fuel generalizing first value cells out with
  | zero => rfl
  | succ fuel ih =>
    have hincr : incr cells out = .ok (out + 1) :=
      incr_ok (List.getElem?_eq_some_iff.mp hcell).1
    rw [readBackLoop, savedValueLoop]
    refine exec_bind_congr fun first _ => ?_
    rw [hincr, exec_bind_ok]
    split
    · rfl
    · refine exec_bind_congr fun x _ => ?_
      rw [deref_of_some hcell, exec_bind_ok]
      split
      · rw [exec_bind_ok]
        refine exec_bind_congr fun cells' hcells' => ?_
        obtain ⟨hlt, rfl⟩ := assign_eq_ok hcells'
        have hlt' : out + 1 < (cells.set (out + 1) x).length := by rwa [List.length_set]
        rw [incr_ok hlt', exec_bind_ok]
        exact ih (List.getElem?_set_self hlt)
      · exact ih hcell

theorem uniqueCopySavedValue_eq
    (hroom : out + (uniqued (projected pred proj) l).length ≤ cells.length) :
    uniqueCopySavedValue pred proj l cells out =
      .ok (l.length, overwrite cells out (uniqued (projected pred proj) l),
        out + (uniqued (projected pred proj) l).length) := by
  cases l with
  | nil => exact congrArg (fun cells => Except.ok (0, cells, out)) (overwrite_nil cells out).symm
  | cons x rest =>
    rw [uniqued_cons, List.length_cons] at hroom
    have hout : out < cells.length := by omega
    have hout' : out < (cells.set out x).length := by rwa [List.length_set]
    have hread : deref (x :: rest) 0 = .ok x := rfl
    have hloop : savedValueLoop pred proj (x :: rest) (rest.length + 1) 0 x (cells.set out x)
        (out + 1) = .ok ((x :: rest).length, _, _) :=
      savedValueLoop_eq (a := []) rfl (Nat.lt_succ_self rest.length)
        (by rw [List.length_set]; omega)
    have hsum : out + 1 + (uniquedFrom (projected pred proj) x rest).length =
        out + (x :: uniquedFrom (projected pred proj) x rest).length := by
      rw [List.length_cons]
      omega
    rw [hsum] at hloop
    rw [uniqueCopySavedValue, if_pos (by simp), hread, exec_bind_ok, assign_eq hout, exec_bind_ok,
      incr_ok hout', exec_bind_ok, uniqued_cons, overwrite_cons hout]
    exact hloop

/-- The three implementations do the same, also where the output has too little room. -/
theorem uniqueCopy_eq (forwardIn forwardOut : Bool) :
    uniqueCopy pred proj l forwardIn forwardOut cells out =
      uniqueCopySavedValue pred proj l cells out := by
  cases forwardOut with
  | true =>
    rw [uniqueCopy, if_pos rfl, uniqueCopyReadBack, uniqueCopySavedValue]
    split
    · refine exec_bind_congr fun x _ => exec_bind_congr fun cells' hcells' => ?_
      obtain ⟨hlt, rfl⟩ := assign_eq_ok hcells'
      have hlt' : out < (cells.set out x).length := by rwa [List.length_set]
      rw [incr_ok hlt', exec_bind_ok]
      exact readBackLoop_eq (List.getElem?_set_self hlt)
    · rfl
  | false =>
    rw [uniqueCopy, if_neg Bool.false_ne_true]
    cases forwardIn with
    | false => rfl
    | true =>
      rw [if_pos rfl, uniqueCopySavedIterator, uniqueCopySavedValue]
      split
      · exact exec_bind_congr fun x hx => exec_bind_congr fun cells _ =>
          exec_bind_congr fun out _ => savedIteratorLoop_eq (get_of_deref hx)
      · rfl

end

/-! ## `unique` -/

/-- What the loop of `unique` keeps behind `x`, by the comparisons of the moved objects. -/
def keptFrom (moved : α → α → Exec Bool) (x : α) : List α → Exec (List α)
  | [] => .ok []
  | y :: l => do
    let related ← moved x y
    if !related then
      let kept ← keptFrom moved y l
      .ok (y :: kept)
    else keptFrom moved x l

/-- They answer as `rel` does whenever an element is compared with the last one kept. -/
def AnswersFrom (rel : α → α → Bool) (moved : α → α → Exec Bool) (x : α) : List α → Prop
  | [] => True
  | y :: l => moved x y = .ok (rel x y) ∧ AnswersFrom rel moved (if rel x y then x else y) l

/-- The same behind the first two neighbours that are related. -/
def Answers (rel : α → α → Bool) (moved : α → α → Exec Bool) : List α → Prop
  | x :: y :: l => if rel x y then AnswersFrom rel moved x (y :: l) else Answers rel moved (y :: l)
  | _ => True

section
variable {moved : α → α → Exec Bool} {kept : List α}

theorem keptFrom_head (h : keptFrom moved x l = .ok (y :: kept)) : moved x y = .ok false := by
  induction l with
  | nil => cases h
  | cons z l ih =>
    rw [keptFrom] at h
    obtain ⟨related, hmoved, h⟩ := exec_bind_eq_ok.mp h
    cases related with
    | true => exact ih h
    | false =>
      obtain ⟨kept', _, h⟩ := exec_bind_eq_ok.mp h
      obtain ⟨rfl, _⟩ := List.cons.inj (Except.ok.inj h)
      exact hmoved

/-- Where the two first differ, one keeps an element that the other cannot keep next. -/
theorem keptFrom_eq_iff (rel : α → α → Bool) (moved : α → α → Exec Bool) (x : α) (l : List α) :
    keptFrom moved x l = .ok (uniquedFrom rel x l) ↔ AnswersFrom rel moved x l := by
  induction l generalizing x with
  | nil => exact ⟨fun _ => trivial, fun _ => rfl⟩
  | cons y l ih =>
    rw [keptFrom, AnswersFrom]
    cases hmoved : moved x y with
    | error e =>
      constructor
      · intro h
        cases h
      · rintro ⟨h, _⟩
        cases h
    | ok related =>
      rw [exec_bind_ok]
      cases hrel : rel x y with
      | true =>
        rw [uniquedFrom_related hrel, if_pos rfl]
        cases related with
        | true =>
          rw [if_neg (by simp), ih x]
          exact ⟨fun h => ⟨rfl, h⟩, fun h => h.2⟩
        | false =>
          constructor
          · intro h
            rw [if_pos Bool.not_false] at h
            obtain ⟨kept, _, h⟩ := exec_bind_eq_ok.mp h
            have hhead := uniquedFrom_head (Except.ok.inj h).symm
            rw [hrel] at hhead
            cases hhead
          · rintro ⟨h, _⟩
            cases h
      | false =>
        rw [uniquedFrom_unrelated hrel, if_neg Bool.false_ne_true]
        cases related with
        | true =>
          constructor
          · intro h
            rw [if_neg (by simp)] at h
            rw [keptFrom_head h] at hmoved
            cases hmoved
          · rintro ⟨h, _⟩
            cases h
        | false =>
          rw [if_pos Bool.not_false, ← ih y]
          constructor
          · intro h
            obtain ⟨kept, hkept, h⟩ := exec_bind_eq_ok.mp h
            exact ⟨rfl, by rw [hkept, (List.cons.inj (Except.ok.inj h)).2]⟩
          · rintro ⟨_, h⟩
            rw [h]
            rfl

end

/-- Objects that a move leaves as they are. -/
theorem answers_of_unchanged {moved : α → α → Exec Bool} (h : ∀ x y, moved x y = .ok (rel x y))
    (l : List α) : Answers rel moved l := by
  have hfrom : ∀ l x, AnswersFrom rel moved x l := by
    intro l
    induction l with
    | nil => exact fun _ => trivial
    | cons y l ih => exact fun x => ⟨h x y, ih _⟩
  induction l with
  | nil => trivial
  | cons x l ih =>
    cases l with
    | nil => trivial
    | cons y l =>
      rw [Answers]
      split
      · exact hfrom (y :: l) x
      · exact ih

/-- The run keeps the elements `kept` in front. -/
def KeepsPrefix (run : Exec (List α × Nat)) (kept : List α) : Prop :=
  ∃ l, run = .ok (l, kept.length) ∧ l.take kept.length = kept

theorem KeepsPrefix.unique {run : Exec (List α × Nat)} {kept kept' : List α}
    (h : KeepsPrefix run kept) (h' : KeepsPrefix run kept') : kept = kept' := by
  obtain ⟨l, hrun, hkept⟩ := h
  obtain ⟨l', hrun', hkept'⟩ := h'
  obtain ⟨rfl, hlength⟩ := Prod.mk.inj (Except.ok.inj (hrun.symm.trans hrun'))
  rw [← hkept, ← hkept', hlength]

section
variable {movedPred : κ → κ → Exec Bool} {movedProj : α → Exec κ} {k g rest : List α} {d : α}
  {fuel : Nat}

theorem uniqueLoop_step (hl : l = k ++ d :: (g ++ y :: rest)) :
    uniqueLoop movedPred movedProj (fuel + 1) l k.length (k.length + 1 + g.length) = (do
      let related ← invokeMoved movedPred movedProj d y
      if !related then
        uniqueLoop movedPred movedProj fuel (l.set (k.length + 1) y) (k.length + 1)
          (k.length + 1 + g.length + 1)
      else uniqueLoop movedPred movedProj fuel l k.length (k.length + 1 + g.length + 1)) := by
  have hlength : l.length = k.length + 1 + g.length + 1 + rest.length := by
    rw [hl]
    simp only [List.length_append, List.length_cons]
    omega
  have hd : deref l k.length = .ok d := by rw [hl, deref_append]
  have hy : deref l (k.length + 1 + g.length) = .ok y := by
    have h := deref_append (k ++ d :: g) y rest
    rw [List.append_assoc, List.cons_append, ← hl, List.length_append, List.length_cons] at h
    rwa [Nat.add_assoc, Nat.add_comm 1]
  have hincr : incr (l.set (k.length + 1) y) (k.length + 1 + g.length) =
      .ok (k.length + 1 + g.length + 1) := incr_ok (by rw [List.length_set]; omega)
  rw [uniqueLoop, if_neg (by omega), hd, exec_bind_ok, hy, exec_bind_ok]
  refine exec_bind_congr fun related _ => ?_
  split
  · rw [incr_ok (by omega), exec_bind_ok, assign_eq (by omega), exec_bind_ok, hincr, exec_bind_ok]
  · rw [incr_ok (by omega), exec_bind_ok]

/-- An element stored behind `d` closes the gap there by one and opens it by one at its own
place. -/
theorem exists_set_gap (k : List α) (d : α) (g : List α) (y : α) (rest : List α) :
    ∃ g' : List α, g'.length = g.length ∧
      (k ++ d :: (g ++ y :: rest)).set (k.length + 1) y = (k ++ [d]) ++ y :: (g' ++ rest) := by
  obtain ⟨z, g', hgap⟩ := List.exists_cons_of_ne_nil (List.concat_ne_nil y g)
  have hlength := congrArg List.length hgap
  rw [List.length_append, List.length_singleton, List.length_cons] at hlength
  have hk : (k ++ [d]).length = k.length + 1 := by rw [List.length_append]; rfl
  have hgap' : g ++ y :: rest = z :: (g' ++ rest) := by
    rw [← List.singleton_append, ← List.append_assoc, hgap, List.cons_append]
  have hsplit : k ++ d :: (g ++ y :: rest) = (k ++ [d]) ++ z :: (g' ++ rest) := by
    rw [hgap', List.append_assoc]
    rfl
  refine ⟨g', (Nat.succ.inj hlength).symm, ?_⟩
  rw [hsplit, ← hk, List.set_append_right _ _ (Nat.le_refl _), Nat.sub_self, List.set_cons_zero]

/-- `k` and `d` are kept, the elements of `g` are in the gap between the two positions. -/
theorem uniqueLoop_spec (movedPred : κ → κ → Exec Bool) (movedProj : α → Exec κ)
    (hl : l = k ++ d :: (g ++ rest)) (hfuel : rest.length < fuel) :
    match keptFrom (invokeMoved movedPred movedProj) d rest with
    | .ok kept => KeepsPrefix (uniqueLoop movedPred movedProj fuel l k.length
        (k.length + 1 + g.length)) (k ++ d :: kept)
    | .error e => uniqueLoop movedPred movedProj fuel l k.length (k.length + 1 + g.length) =
        .error e := by
  induction rest generalizing l k d g fuel with
  | nil =>
    obtain ⟨fuel, rfl⟩ : ∃ n, fuel = n + 1 := ⟨fuel - 1, by omega⟩
    have hlength : l.length = k.length + 1 + g.length := by
      rw [hl]
      simp only [List.length_append, List.length_cons, List.length_nil]
      omega
    refine ⟨l, ?_, ?_⟩
    · rw [uniqueLoop, if_pos hlength.symm, incr_ok (by omega), exec_bind_ok, List.length_append]
      rfl
    · have hsplit : l = (k ++ [d]) ++ g := by rw [hl]; simp
      rw [hsplit, List.take_left]
  | cons y rest ih =>
    obtain ⟨fuel, rfl⟩ : ∃ n, fuel = n + 1 := ⟨fuel - 1, by omega⟩
    have hfuel := Nat.lt_of_succ_lt_succ hfuel
    rw [uniqueLoop_step hl, keptFrom]
    cases invokeMoved movedPred movedProj d y with
    | error e => rfl
    | ok related =>
      rw [exec_bind_ok, exec_bind_ok]
      cases related with
      | true =>
        have hrest := ih (l := l) (k := k) (d := d) (g := g ++ [y]) (by rw [hl]; simp) hfuel
        rw [List.length_append] at hrest
        exact hrest
      | false =>
        obtain ⟨g', hgap, hset⟩ := exists_set_gap k d g y rest
        have hk : (k ++ [d]).length = k.length + 1 := List.length_append
        have hfirst : (k ++ [d]).length + 1 + g'.length = k.length + 1 + g.length + 1 := by
          rw [hk, hgap, Nat.add_right_comm]
        have hrest := ih (k := k ++ [d]) (hl ▸ hset) hfuel
        rw [hfirst, hk] at hrest
        rw [if_pos Bool.not_false]
        cases hkept : keptFrom (invokeMoved movedPred movedProj) y rest with
        | error e =>
          rw [hkept] at hrest
          exact hrest
        | ok kept =>
          rw [hkept] at hrest
          dsimp only at hrest
          rw [List.append_assoc] at hrest
          exact hrest

theorem uniqueLoop_keeps_iff (rel : α → α → Bool) (hl : l = k ++ d :: rest)
    (hfuel : rest.length < fuel) :
    KeepsPrefix (uniqueLoop movedPred movedProj fuel l k.length (k.length + 1))
        (k ++ d :: uniquedFrom rel d rest) ↔
      AnswersFrom rel (invokeMoved movedPred movedProj) d rest := by
  have hspec := uniqueLoop_spec movedPred movedProj (g := []) hl hfuel
  rw [← keptFrom_eq_iff]
  cases hkept : keptFrom (invokeMoved movedPred movedProj) d rest with
  | error e =>
    rw [hkept] at hspec
    constructor
    · rintro ⟨l', hrun, _⟩
      cases hspec.symm.trans hrun
    · intro h
      cases h
  | ok kept =>
    rw [hkept] at hspec
    constructor
    · intro h
      have heq := List.append_cancel_left (h.unique hspec)
      rw [(List.cons.inj heq).2]
    · intro h
      rw [← Except.ok.inj h]
      exact hspec

/-- `adjacent_find` stops in front of the first neighbours that are related. Up to there every
element is kept. -/
theorem adjacentFindLoop_keeps_iff {pred : κ → κ → Bool} {proj : α → κ} {a : List α}
    (hl : l = a ++ x :: rest) (hfuel : rest.length < fuel) :
    KeepsPrefix (do
        let first ← adjacentFindLoop pred proj l fuel a.length
        if first ≠ l.length then
          let dest := first
          let first ← incr l first
          uniqueLoop movedPred movedProj l.length l dest first
        else .ok (l, first)) (a ++ x :: uniquedFrom (projected pred proj) x rest) ↔
      Answers (projected pred proj) (invokeMoved movedPred movedProj) (x :: rest) := by
  induction rest generalizing a x fuel with
  | nil =>
    obtain ⟨fuel, rfl⟩ : ∃ n, fuel = n + 1 := ⟨fuel - 1, by omega⟩
    have hlength : l.length = a.length + 1 := by rw [hl, List.length_append]; rfl
    have hkeeps : KeepsPrefix (.ok (l, a.length + 1)) (a ++ [x]) :=
      ⟨l, by rw [List.length_append]; rfl, by rw [← hl, List.take_length]⟩
    rw [hl, adjacentFindLoop_last, exec_bind_ok, ← hl, if_neg (not_not_intro hlength.symm)]
    exact ⟨fun _ => trivial, fun _ => hkeeps⟩
  | cons y rest ih =>
    obtain ⟨fuel, rfl⟩ : ∃ n, fuel = n + 1 := ⟨fuel - 1, by omega⟩
    have hl' : l = (a ++ [x]) ++ y :: rest := by rw [hl, List.append_assoc]; rfl
    have hlength := congrArg List.length hl
    rw [List.length_append, List.length_cons, List.length_cons] at hlength
    have hturn := adjacentFindLoop_turn pred proj a x y rest fuel
    rw [← hl, ← hl'] at hturn
    rw [hturn, Answers]
    cases hrel : projected pred proj x y with
    | true =>
      have htest : pred (proj x) (proj y) = true := hrel
      rw [htest, if_pos rfl, exec_bind_ok, if_pos (by omega), incr_ok (by omega), if_pos rfl]
      exact uniqueLoop_keeps_iff _ hl (by rw [List.length_cons]; omega)
    | false =>
      have htest : pred (proj x) (proj y) = false := hrel
      have hrest := ih hl' (Nat.lt_of_succ_lt_succ hfuel)
      rw [List.append_assoc] at hrest
      rw [htest, if_neg Bool.false_ne_true, uniquedFrom_unrelated hrel, if_neg Bool.false_ne_true]
      exact hrest

end

/-- The three implementations write one list, and it is what `unique` keeps. -/
def UniqueLaw (pred : κ → κ → Bool) (proj : α → κ) (movedPred : κ → κ → Exec Bool)
    (movedProj : α → Exec κ) (l : List α) : Prop :=
  (∀ forwardIn forwardOut cells out,
    out + (uniqued (projected pred proj) l).length ≤ cells.length →
      uniqueCopy pred proj l forwardIn forwardOut cells out =
        .ok (l.length, overwrite cells out (uniqued (projected pred proj) l),
          out + (uniqued (projected pred proj) l).length)) ∧
  KeepsPrefix (unique pred proj movedPred movedProj l) (uniqued (projected pred proj) l)

end EARanges.Algorithm
