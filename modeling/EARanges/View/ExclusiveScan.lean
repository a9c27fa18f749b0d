import EARanges.Support.Cursor
import EARanges.Support.Numbered

/-!
# `exclusive_scan_view`

view/exclusive_scan.hpp. An iterator of the view is the adaptor's running sum beside
the base iterator, which is an index. Only `begin` and `next` assign `sum_`;
`dflt` is the value it has before that: `none` where it is indeterminate or a
disengaged box, so that reading it faults, else the default-constructed `T`.
-/
namespace EARanges.View
open EARanges.Support

structure ExclusiveScanView (α τ : Type) where
  rng : List α
  init : τ
  fn : τ → α → τ
  dflt : Option τ

/-- `adaptor<IsConst>` and its base iterator. -/
structure ScanAdaptor (isConst : Bool) (τ : Type) where
  it : Nat
  sum : Option τ
  deriving DecidableEq, Repr

namespace ExclusiveScanView

variable {α τ : Type} {k : Bool}

def beginAdaptor (v : ExclusiveScanView α τ) : ScanAdaptor k τ := { it := 0, sum := some v.init }

/-- The end iterator of a common base, made by `adaptor(rng)` alone. -/
def endAdaptor (v : ExclusiveScanView α τ) : ScanAdaptor k τ :=
  { it := v.rng.length, sum := v.dflt }

/-- The converting constructor: its initialisers do not name `sum_`. -/
def toConst (v : ExclusiveScanView α τ) (a : ScanAdaptor false τ) : ScanAdaptor true τ :=
  { it := a.it, sum := v.dflt }

def read (_ : ExclusiveScanView α τ) (a : ScanAdaptor k τ) : Exec τ :=
  match a.sum with
  | some s => .ok s
  | none => .error .fault

def next (v : ExclusiveScanView α τ) (a : ScanAdaptor k τ) : Exec (ScanAdaptor k τ) :=
  if a.it = v.rng.length then .error .fault
  else do
    let s ← read v a
    let x ← deref v.rng a.it
    let it ← incr v.rng a.it
    .ok { it, sum := some (v.fn s x) }

def cursor (v : ExclusiveScanView α τ) : Cursor (ScanAdaptor k τ) τ := ⟨read v, next v⟩

def loop (v : ExclusiveScanView α τ) : Loop (ScanAdaptor k τ) τ where
  start := .ok (beginAdaptor v)
  atEnd a := .ok (a.it == v.rng.length)
  read := read v
  next := next v

/-- The accumulations of the elements before each position. -/
def accumulations (v : ExclusiveScanView α τ) : List τ :=
  (List.range v.rng.length).map fun i => (v.rng.take i).foldl v.fn v.init

/-- The adaptor `i` steps from the begin. -/
def adaptorAt (v : ExclusiveScanView α τ) (i : Nat) : ScanAdaptor k τ :=
  { it := i, sum := some ((v.rng.take i).foldl v.fn v.init) }

theorem next_adaptorAt {v : ExclusiveScanView α τ} {i : Nat} (hi : i < v.rng.length) :
    next v (adaptorAt v i : ScanAdaptor k τ) = .ok (adaptorAt v (i + 1)) := by
  have hget := List.getElem?_eq_getElem hi
  rw [next, if_neg (by simp only [adaptorAt]; omega)]
  simp only [read, adaptorAt, exec_bind_ok, deref_of_some hget, incr_ok hi]
  rw [List.take_add_one, hget, Option.toList_some, List.foldl_append]
  rfl

theorem getElem?_accumulations {v : ExclusiveScanView α τ} {i : Nat} (hi : i < v.rng.length) :
    (accumulations v)[i]? = some ((v.rng.take i).foldl v.fn v.init) := by
  simp [accumulations, hi]

theorem length_accumulations (v : ExclusiveScanView α τ) :
    (accumulations v).length = v.rng.length := by simp [accumulations]

theorem delivers_accumulations (v : ExclusiveScanView α τ) :
    (loop v : Loop (ScanAdaptor k τ) τ).Delivers (accumulations v) := by
  suffices hnumbers : (loop v : Loop (ScanAdaptor k τ) τ).Numbers (accumulations v)
      fun i a => i ≤ v.rng.length ∧ a = adaptorAt v i from hnumbers.delivers
  refine { start := ?_, next := ?_, atEnd := ?_, read := ?_ }
  · exact ⟨beginAdaptor v, rfl, Nat.zero_le _, rfl⟩
  · rintro i _ ⟨-, rfl⟩ hi
    rw [length_accumulations] at hi
    exact ⟨_, next_adaptorAt hi, hi, rfl⟩
  · rintro i _ ⟨-, rfl⟩
    rw [length_accumulations]
    rfl
  · rintro i _ x ⟨-, rfl⟩ hx
    have hi := (List.getElem?_eq_some_iff.mp hx).1
    rw [length_accumulations] at hi
    rw [getElem?_accumulations hi] at hx
    exact congrArg Except.ok (Option.some.inj hx)

/-- The adaptor states a mutable view hands out or steps to. -/
inductive Reachable (v : ExclusiveScanView α τ) : ScanAdaptor k τ → Prop
  | begin : Reachable v (beginAdaptor v)
  | end : Reachable v (endAdaptor v)
  | next {a a' : ScanAdaptor k τ} : Reachable v a → next v a = .ok a' → Reachable v a'

/-- Same place, same sum: the two adaptors differ in constness only. -/
def Agree (a : ScanAdaptor false τ) (b : ScanAdaptor true τ) : Prop := a.it = b.it ∧ a.sum = b.sum

theorem Agree.read_eq {v : ExclusiveScanView α τ} {a : ScanAdaptor false τ}
    {b : ScanAdaptor true τ} (h : Agree a b) : read v a = read v b := by
  unfold read
  rw [h.2]

theorem Agree.next {v : ExclusiveScanView α τ} {a : ScanAdaptor false τ}
    {b : ScanAdaptor true τ} (h : Agree a b) :
    Cursor.StepsAlike Agree (next v a) (next v b) := by
  unfold ExclusiveScanView.next
  rw [h.read_eq, h.1]
  split
  · exact .error _
  · cases read v b with
    | error e => exact .error e
    | ok s =>
      cases deref v.rng b.it with
      | error e => exact .error e
      | ok x =>
        cases incr v.rng b.it with
        | error e => exact .error e
        | ok it => exact .ok ⟨rfl, rfl⟩

theorem read_inj {v : ExclusiveScanView α τ} {a : ScanAdaptor false τ} {b : ScanAdaptor true τ}
    (h : read v a = read v b) : a.sum = b.sum := by
  unfold read at h
  cases ha : a.sum <;> cases hb : b.sum <;> simp_all

/-- The converted adaptor reads and steps as the mutable one. -/
def ConversionLaw (v : ExclusiveScanView α τ) (a : ScanAdaptor false τ) : Prop :=
  Cursor.SameReads (cursor v) (cursor v) a (toConst v a)

theorem conversionLaw_iff (v : ExclusiveScanView α τ) (a : ScanAdaptor false τ) :
    ConversionLaw v a ↔ a.sum = v.dflt := by
  constructor
  · exact fun hsame => read_inj (v := v) hsame.read_eq
  · intro hsum
    refine Cursor.sameReads_of_related Agree ?_ (fun _ _ h => h.next) ⟨rfl, hsum⟩
    exact fun _ _ h => h.read_eq (v := v)

end ExclusiveScanView

end EARanges.View
