import EARanges.Support.Exec
import Mathlib.Data.List.Basic
import Mathlib.Logic.Function.Basic

/-!
# A flat store with raw cells

One address space holds all arrays a function works on. A cell outside them is absent,
a raw cell has no object yet, and any other cell holds one. Reading needs an object;
writing needs one too, unless the pointer constructs. Pointers run forward or backward.
`Trails` is the condition under which an output overlapping an input does no harm: the
`j`-th input cell is written only after `lead + j` writes.
-/
namespace EARanges.Support

variable {α : Type}

/-- `none` is no cell, `some none` a raw one. -/
abbrev Store (α : Type) := Int → Option (Option α)

/-- An iterator into the store, by the cell it dereferences; `back` for reverse
iterators, `raw` for iterators that construct. -/
structure Ptr where
  addr : Int
  back : Bool := false
  raw : Bool := false
  deriving DecidableEq, Repr

namespace Ptr

/-- The address `i` steps on. -/
def cell (p : Ptr) (i : Nat) : Int := if p.back then p.addr - i else p.addr + i

def advance (p : Ptr) (n : Nat) : Ptr := { p with addr := p.cell n }

def next (p : Ptr) : Ptr := p.advance 1

/-- `reverse_iterator(p)`, which dereferences the cell before `p`. -/
def reverse (p : Ptr) : Ptr := { p with addr := p.addr - 1, back := true }

theorem cell_zero (p : Ptr) : p.cell 0 = p.addr := by
  unfold cell
  split <;> simp

theorem advance_cell (p : Ptr) (n i : Nat) : (p.advance n).cell i = p.cell (n + i) := by
  unfold advance cell
  split <;> simp_all <;> omega

theorem next_cell (p : Ptr) (i : Nat) : p.next.cell i = p.cell (i + 1) := by
  rw [next, advance_cell, Nat.add_comm]

theorem advance_advance (p : Ptr) (n m : Nat) : (p.advance n).advance m = p.advance (n + m) := by
  have h := p.advance_cell n m
  unfold advance at h ⊢
  simp only [h]

theorem next_advance (p : Ptr) (n : Nat) : p.next.advance n = p.advance (n + 1) := by
  rw [next, advance_advance, Nat.add_comm]

theorem advance_zero (p : Ptr) : p.advance 0 = p := by
  rw [advance, cell_zero]

theorem cell_inj (p : Ptr) {i j : Nat} (h : p.cell i = p.cell j) : i = j := by
  unfold cell at h
  split at h <;> omega

end Ptr

def load (s : Store α) (p : Ptr) : Exec α :=
  match s p.addr with
  | some (some x) => .ok x
  | _ => .error .fault

def store (s : Store α) (p : Ptr) (x : α) : Exec (Store α) :=
  match s p.addr with
  | some (some _) => .ok (Function.update s p.addr (some (some x)))
  | some none => if p.raw then .ok (Function.update s p.addr (some (some x))) else .error .fault
  | none => .error .fault

/-- The elements of `[p, p + n)`. -/
def loadMany (s : Store α) (p : Ptr) : Nat → Exec (List α)
  | 0 => .ok []
  | n + 1 => do
    let x ← load s p
    let xs ← loadMany s p.next n
    .ok (x :: xs)

/-- A range at address 0 and `k` raw cells behind it. -/
def withBuffer (l : List α) (k : Nat) : Store α := fun a =>
  if a < 0 then none
  else if a < l.length then (l[a.toNat]?).map some
  else if a < l.length + k then some none
  else none

/-! ## What a store holds -/

/-- The cells from `p` on hold `l`. -/
def Holds (s : Store α) : Ptr → List α → Prop
  | _, [] => True
  | p, x :: l => s p.addr = some (some x) ∧ Holds s p.next l

/-- The `n` cells from `p` on may be written through `p`. -/
def Writable (s : Store α) (p : Ptr) (n : Nat) : Prop :=
  ∀ i < n, ∃ c, s (p.cell i) = some c ∧ (c = none → p.raw = true)

/-- The `j`-th cell from `p` is not among the first `lead + j` cells from `out`. -/
def Trails (out p : Ptr) (lead n : Nat) : Prop :=
  ∀ i j, j < n → i < lead + j → out.cell i ≠ p.cell j

/-- The `n` cells from `p` on and the `m` cells from `q` on are different cells. -/
def Apart (p : Ptr) (n : Nat) (q : Ptr) (m : Nat) : Prop :=
  ∀ i < n, ∀ j < m, p.cell i ≠ q.cell j

/-- `s'` differs from `s` in the `n` cells from `p` on only. -/
def SameOutside (p : Ptr) (n : Nat) (s s' : Store α) : Prop :=
  ∀ a, (∀ i < n, p.cell i ≠ a) → s' a = s a

theorem holds_iff {s : Store α} {p : Ptr} {l : List α} :
    Holds s p l ↔ ∀ i x, l[i]? = some x → s (p.cell i) = some (some x) := by
  induction l generalizing p with
  | nil => simp [Holds]
  | cons y l ih =>
    rw [Holds, ih]
    constructor
    · rintro ⟨hhead, htail⟩ i x hx
      cases i with
      | zero =>
        rw [List.getElem?_cons_zero, Option.some.injEq] at hx
        rw [p.cell_zero, hhead, hx]
      | succ i => rw [← p.next_cell]; exact htail i x (by simpa using hx)
    · intro h
      refine ⟨by rw [← p.cell_zero]; exact h 0 y rfl, fun i x hx => ?_⟩
      rw [p.next_cell]
      exact h (i + 1) x (by simpa using hx)

theorem Holds.congr {s s' : Store α} {p : Ptr} {l : List α} (h : Holds s p l)
    (hsame : ∀ i < l.length, s' (p.cell i) = s (p.cell i)) : Holds s' p l := by
  rw [holds_iff] at h ⊢
  intro i x hx
  rw [hsame i (List.getElem?_eq_some_iff.mp hx).1]
  exact h i x hx

theorem holds_append {s : Store α} {p : Ptr} {l m : List α} :
    Holds s p (l ++ m) ↔ Holds s p l ∧ Holds s (p.advance l.length) m := by
  induction l generalizing p with
  | nil => simp [Holds, Ptr.advance_zero]
  | cons x l ih =>
    rw [List.cons_append, Holds, Holds, ih, Ptr.next_advance, List.length_cons, and_assoc]

theorem load_of_holds {s : Store α} {p : Ptr} {x : α} {l : List α} (h : Holds s p (x :: l)) :
    load s p = .ok x := by
  rw [load, h.1]

theorem loadMany_of_holds {s : Store α} {p : Ptr} {l : List α} (h : Holds s p l) :
    loadMany s p l.length = .ok l := by
  induction l generalizing p with
  | nil => rfl
  | cons x l ih =>
    rw [List.length_cons, loadMany, load_of_holds h, exec_bind_ok, ih h.2, exec_bind_ok]

theorem store_of_writable {s : Store α} {p : Ptr} {n : Nat} (h : Writable s p (n + 1)) (x : α) :
    store s p x = .ok (Function.update s p.addr (some (some x))) := by
  obtain ⟨c, hc, hraw⟩ := h 0 (Nat.succ_pos n)
  rw [p.cell_zero] at hc
  rw [store, hc]
  cases c with
  | none => simp [hraw rfl]
  | some y => rfl

theorem Writable.mono {s : Store α} {p : Ptr} {n m : Nat} (h : Writable s p n) (hle : m ≤ n) :
    Writable s p m := fun i hi => h i (by omega)

theorem Writable.advance {s : Store α} {p : Ptr} {n m : Nat} (h : Writable s p (n + m)) :
    Writable s (p.advance n) m := fun i hi => by
  rw [p.advance_cell]
  exact h (n + i) (by omega)

/-- Writing turns raw cells into objects and takes no cell away. -/
theorem Writable.congr {s s' : Store α} {p : Ptr} {n : Nat} (h : Writable s p n)
    (hsame : ∀ i < n, s' (p.cell i) = s (p.cell i) ∨ ∃ x, s' (p.cell i) = some (some x)) :
    Writable s' p n := by
  intro i hi
  obtain heq | ⟨x, hx⟩ := hsame i hi
  · rw [heq]
    exact h i hi
  · exact ⟨some x, hx, fun h => by cases h⟩

theorem Writable.update {s : Store α} {p : Ptr} {n : Nat} (h : Writable s p n) (a : Int) (x : α) :
    Writable (Function.update s a (some (some x))) p n := by
  apply h.congr
  intro i _
  by_cases ha : p.cell i = a
  · exact .inr ⟨x, by rw [ha, Function.update_self]⟩
  · exact .inl (Function.update_of_ne ha _ _)

theorem Holds.writable {s : Store α} {p : Ptr} {l : List α} (h : Holds s p l) :
    Writable s p l.length := fun i hi =>
  ⟨some l[i], holds_iff.mp h i l[i] (List.getElem?_eq_getElem hi), fun h => by cases h⟩

theorem Holds.update {s : Store α} {p : Ptr} {l : List α} (h : Holds s p l) {a : Int}
    (ha : ∀ i < l.length, a ≠ p.cell i) (c : Option (Option α)) :
    Holds (Function.update s a c) p l :=
  h.congr fun i hi => Function.update_of_ne (ha i hi).symm _ _

theorem Trails.next_both {out p : Ptr} {lead n : Nat} (h : Trails out p lead (n + 1)) :
    Trails out.next p.next lead n := by
  intro i j hj hi
  rw [out.next_cell, p.next_cell]
  exact h (i + 1) (j + 1) (by omega) (by omega)

theorem Trails.next_out {out p : Ptr} {lead n : Nat} (h : Trails out p (lead + 1) n) :
    Trails out.next p lead n := by
  intro i j hj hi
  rw [out.next_cell]
  exact h (i + 1) j hj (by omega)

theorem Trails.mono {out p : Ptr} {lead lead' n : Nat} (h : Trails out p lead n)
    (hle : lead' ≤ lead) : Trails out p lead' n :=
  fun i j hj hi => h i j hj (by omega)

/-- The first write spares all cells but the first when nothing leads. -/
theorem Trails.addr_ne {out p : Ptr} {lead n : Nat} (h : Trails out p lead n) {j : Nat} (hj : j < n)
    (hpos : 0 < lead + j) : out.addr ≠ p.cell j := by
  rw [← out.cell_zero]
  exact h 0 j hj hpos

/-- The rest of an input survives the write that follows the read of its head. -/
theorem Holds.update_next {s : Store α} {out p : Ptr} {x : α} {l : List α} {lead : Nat}
    (h : Holds s p (x :: l)) (ht : Trails out p lead (l.length + 1)) (c : Option (Option α)) :
    Holds (Function.update s out.addr c) p.next l := by
  apply h.2.update
  intro i hi
  rw [p.next_cell]
  exact ht.addr_ne (j := i + 1) (by omega) (by omega)

theorem Apart.trails {out p : Ptr} {lead n : Nat} (h : Apart out (lead + n) p n) :
    Trails out p lead n :=
  fun i j hj hi => h i (by omega) j hj

theorem Apart.mono {p q : Ptr} {n m n' m' : Nat} (h : Apart p n q m) (hn : n' ≤ n)
    (hm : m' ≤ m) : Apart p n' q m' :=
  fun i hi j hj => h i (by omega) j (by omega)

theorem Apart.advance_right {p q : Ptr} {n m j m' : Nat} (h : Apart p n q m) (hm : j + m' ≤ m) :
    Apart p n (q.advance j) m' := by
  intro a ha b hb
  rw [q.advance_cell]
  exact h a ha (j + b) (by omega)

theorem Apart.symm {p q : Ptr} {n m : Nat} (h : Apart p n q m) : Apart q m p n :=
  fun j hj i hi => (h i hi j hj).symm

theorem Apart.advance_left {p q : Ptr} {n m i n' : Nat} (h : Apart p n q m) (hn : i + n' ≤ n) :
    Apart (p.advance i) n' q m :=
  (h.symm.advance_right hn).symm

/-- What lies apart from the cells that changed is still there. -/
theorem Holds.of_sameOutside {s s' : Store α} {out p : Ptr} {n : Nat} {l : List α}
    (h : Holds s p l) (hsame : SameOutside out n s s') (hapart : Apart out n p l.length) :
    Holds s' p l :=
  h.congr fun j hj => hsame _ fun i hi => hapart i hi j hj

theorem SameOutside.refl (p : Ptr) (n : Nat) (s : Store α) : SameOutside p n s s := fun _ _ => rfl

theorem SameOutside.step {p : Ptr} {n : Nat} {s s' : Store α} {c : Option (Option α)}
    (h : SameOutside p.next n (Function.update s p.addr c) s') : SameOutside p (n + 1) s s' := by
  intro a ha
  have hne : a ≠ p.addr := fun heq => ha 0 (Nat.succ_pos n) (by rw [p.cell_zero, heq])
  rw [h a fun i hi => by rw [p.next_cell]; exact ha (i + 1) (by omega), Function.update_of_ne hne]

theorem SameOutside.trans {p : Ptr} {n m : Nat} {s s' s'' : Store α} (h : SameOutside p n s s')
    (h' : SameOutside (p.advance n) m s' s'') : SameOutside p (n + m) s s'' := by
  intro a ha
  rw [h' a fun i hi => by rw [p.advance_cell]; exact ha (n + i) (by omega),
    h a fun i hi => ha i (by omega)]

/-- Writing the first `n` cells leaves those behind them writable. -/
theorem SameOutside.writable_advance {p : Ptr} {n m : Nat} {s s' : Store α}
    (h : SameOutside p n s s') (hw : Writable s p (n + m)) : Writable s' (p.advance n) m := by
  refine hw.advance.congr fun i _ => .inl (h _ fun j hj heq => ?_)
  rw [p.advance_cell] at heq
  have := p.cell_inj heq
  omega

/-- Writing behind `l` leaves it. -/
theorem SameOutside.holds_front {p : Ptr} {n : Nat} {l : List α} {s s' : Store α}
    (h : SameOutside (p.advance l.length) n s s') (hl : Holds s p l) : Holds s' p l := by
  refine hl.congr fun i hi => h _ fun j _ heq => ?_
  rw [p.advance_cell] at heq
  have := p.cell_inj heq
  omega

/-! ## The initial store -/

theorem withBuffer_holds (l : List α) (k : Nat) : Holds (withBuffer l k) ⟨0, false, false⟩ l := by
  rw [holds_iff]
  intro i x hx
  have hi := (List.getElem?_eq_some_iff.mp hx).1
  simp only [withBuffer, Ptr.cell, Bool.false_eq_true, if_false]
  rw [if_neg (by omega), if_pos (by omega)]
  simp only [Int.zero_add, Int.toNat_natCast, hx, Option.map_some]

/-- The buffer may be written by a constructing pointer. -/
theorem withBuffer_writable (l : List α) {k n : Nat} (h : n ≤ k) :
    Writable (withBuffer l k) ⟨l.length, false, true⟩ n := by
  intro i hi
  refine ⟨none, ?_, fun _ => rfl⟩
  simp only [withBuffer, Ptr.cell, Bool.false_eq_true, if_false]
  rw [if_neg (by omega), if_neg (by omega), if_pos (by omega)]

end EARanges.Support
