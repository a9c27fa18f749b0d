import EARanges.Support.Exec
import Mathlib.Logic.Function.Basic

/-!
# `variant`

detail/variant.hpp: copy and move construction, copy and move assignment and `emplace`. A
variant has an index and storage in which at most one object is alive. The storage is a
nested union that `variant_visit_` and `variant_move_copy_` descend, one alternative at each
level; at the bottom the latter returns 0, so that its caller computes an index even if no
alternative was met. Variables have addresses, as an assignment may be to the variable it
reads. Reading or destroying an object that is not alive faults.
-/
namespace EARanges.Detail
open EARanges.Support

/-- `(size_t)-1`. -/
def npos : Nat := 0xffffffffffffffff

/-- A list of alternatives, whose number is less than the largest `size_t`. -/
structure Alternatives where
  count : Nat
  type : Fin count → Type
  count_lt : count < npos

/-- An object of one of the alternatives. -/
abbrev Element (Ts : Alternatives) : Type := Σ i, Ts.type i

/-- `alive` is the object in the storage. -/
structure Variant (Ts : Alternatives) where
  index : Nat
  alive : Option (Element Ts)

variable {Ts : Alternatives}

/-- `variant_visit_`, with `rest` alternatives from level `depth` on: the level reached. -/
def variantVisit : Nat → Nat → Nat → Exec Nat
  -- EARANGES_EXPECT(false)
  | 0, _, _ => .error .fault
  | _ + 1, 0, depth => .ok depth
  | rest + 1, n + 1, depth => variantVisit rest n (depth + 1)

/-- `head` at a level, which has to be alive. -/
def headAt (alive : Option (Element Ts)) (depth : Nat) : Exec (Element Ts) :=
  match alive with
  | some x => if x.1.val = depth then .ok x else .error .fault
  | none => .error .fault

/-- `variant_move_copy_`: the number returned and the new storage, or none if the
constructor of the object throws. -/
def variantMoveCopy (throws : Bool) (that : Option (Element Ts)) :
    Nat → Nat → Nat → Option (Element Ts) → Exec (Option (Nat × Option (Element Ts)))
  | 0, _, _, self => .ok (some (0, self))
  | _ + 1, 0, depth, _ => do
    let x ← headAt that depth
    .ok (if throws then none else some (0, some x))
  | rest + 1, n + 1, depth, self => do
    let r ← variantMoveCopy throws that rest n (depth + 1) self
    .ok (r.map fun (i, self) => (i + 1, self))

namespace Variant

def valid (v : Variant Ts) : Bool := v.index != npos

/-- `clear_`. -/
def clear (v : Variant Ts) : Exec (Variant Ts) :=
  if v.valid then do
    let depth ← variantVisit Ts.count v.index 0
    let _ ← headAt v.alive depth
    .ok ⟨npos, none⟩
  else .ok v

/-- `assign_`: the target, and whether an exception has left the function. -/
def assign (throws : Bool) (self that : Variant Ts) : Exec (Variant Ts × Bool) :=
  if that.valid then do
    let r ← variantMoveCopy throws that.alive Ts.count that.index 0 self.alive
    match r with
    | some (index, alive) => .ok (⟨index, alive⟩, false)
    | none => .ok (self, true)
  else .ok (self, false)

/-- `variant(variant const &)` and `variant(variant &&)`; none if they throw. -/
def construct (throws : Bool) (that : Variant Ts) : Exec (Option (Variant Ts)) := do
  let r ← variantMoveCopy throws that.alive Ts.count that.index 0 none
  .ok (r.map fun (index, alive) => ⟨index, alive⟩)

/-- `emplace` of the object `x`, and whether an exception has left the function. -/
def emplace (throws : Bool) (self : Variant Ts) (x : Element Ts) : Exec (Variant Ts × Bool) := do
  let self ← self.clear
  let depth ← variantVisit Ts.count x.1 0
  -- `construct_fn` at another level: EARANGES_EXPECT(false)
  if depth = x.1 then .ok (if throws then (self, true) else (⟨x.1, some x⟩, false))
  else .error .fault

end Variant

/-- What is done to variables. -/
inductive Op (Ts : Alternatives) where
  | construct (dst src : Nat)
  | assign (dst src : Nat)
  | emplace (dst : Nat) (x : Element Ts)

/-- One operation; `throws` says whether the constructor of a new object throws. The result
says whether an exception has left the operation. -/
def step (throws : Bool) (s : Nat → Variant Ts) : Op Ts → Exec ((Nat → Variant Ts) × Bool)
  | .construct dst src => do
    let r ← (s src).construct throws
    match r with
    | some v => .ok (Function.update s dst v, false)
    | none => .ok (s, true)
  | .assign dst src => do
    let self ← (s dst).clear
    -- `that` is read from here on, also when it is the target
    let s := Function.update s dst self
    let (self, thrown) ← self.assign throws (s src)
    .ok (Function.update s dst self, thrown)
  | .emplace dst x => do
    let (self, thrown) ← (s dst).emplace throws x
    .ok (Function.update s dst self, thrown)

/-! ## What a variant is for -/

/-- An object of one of the alternatives, or nothing. -/
abbrev Content (Ts : Alternatives) : Type := Option (Element Ts)

/-- The variant that holds a content: the index is that of the object alive. -/
def represent : Content Ts → Variant Ts
  | some x => ⟨x.1, some x⟩
  | none => ⟨npos, none⟩

/-- The contents after an operation. Nothing is constructed from a variable without an
object, nor in an assignment of a variable to itself. -/
def Op.apply (throws : Bool) (a : Nat → Content Ts) : Op Ts → (Nat → Content Ts) × Bool
  | .construct dst src =>
    if throws && (a src).isSome then (a, true) else (Function.update a dst (a src), false)
  | .assign dst src =>
    if dst = src then (a, false)
    else if throws && (a src).isSome then (Function.update a dst none, true)
    else (Function.update a dst (a src), false)
  | .emplace dst x =>
    if throws then (Function.update a dst none, true) else (Function.update a dst (some x), false)

/-- No construction from a variable without an object, and no assignment of a variable
with one to itself. -/
def Op.Admissible (a : Nat → Content Ts) : Op Ts → Prop
  | .construct _ src => (a src).isSome = true
  | .assign dst src => dst = src → (a src).isSome = false
  | .emplace _ _ => True

/-! ## The functions on variants that hold a content -/

theorem variantVisit_eq {rest n : Nat} (h : n < rest) (depth : Nat) :
    variantVisit rest n depth = .ok (depth + n) := by
  induction n generalizing rest depth with
  | zero =>
    cases rest with
    | zero => omega
    | succ rest => rfl
  | succ n ih =>
    cases rest with
    | zero => omega
    | succ rest =>
      rw [variantVisit, ih (by omega), Nat.add_right_comm]
      rfl

/-- An alternative that is met is constructed, and the levels above it are counted. -/
theorem variantMoveCopy_eq {throws : Bool} {that self : Option (Element Ts)} {rest n depth : Nat}
    {x : Element Ts} (h : n < rest) (hx : headAt that (depth + n) = .ok x) :
    variantMoveCopy throws that rest n depth self =
      .ok (if throws then none else some (n, some x)) := by
  induction n generalizing rest depth with
  | zero =>
    cases rest with
    | zero => omega
    | succ rest =>
      rw [Nat.add_zero] at hx
      rw [variantMoveCopy, hx, exec_bind_ok]
  | succ n ih =>
    cases rest with
    | zero => omega
    | succ rest =>
      have hx' : headAt that (depth + 1 + n) = .ok x := by
        rwa [Nat.add_right_comm]
      rw [variantMoveCopy, ih (by omega) hx', exec_bind_ok]
      cases throws <;> rfl

/-- With too large an index all levels are counted, and nothing is constructed. -/
theorem variantMoveCopy_nil {throws : Bool} {that self : Option (Element Ts)} {rest n depth : Nat}
    (h : rest ≤ n) : variantMoveCopy throws that rest n depth self = .ok (some (rest, self)) := by
  induction rest generalizing n depth with
  | zero => rfl
  | succ rest ih =>
    cases n with
    | zero => omega
    | succ n =>
      rw [variantMoveCopy, ih (by omega), exec_bind_ok]
      rfl

theorem headAt_some (x : Element Ts) : headAt (some x) x.1 = .ok x := if_pos rfl

theorem index_ne_npos (i : Fin Ts.count) : i.val ≠ npos :=
  Nat.ne_of_lt (Nat.lt_trans i.isLt Ts.count_lt)

@[simp] theorem valid_represent (c : Content Ts) : (represent c).valid = c.isSome := by
  cases c with
  | none => rfl
  | some x => exact bne_iff_ne.mpr (index_ne_npos x.1)

@[simp] theorem clear_represent (c : Content Ts) : (represent c).clear = .ok (represent none) := by
  unfold Variant.clear
  rw [valid_represent]
  cases c with
  | none => rfl
  | some x =>
    have hvisit : variantVisit Ts.count (represent (some x)).index 0 = .ok (0 + x.1) :=
      variantVisit_eq x.1.isLt 0
    rw [if_pos (by rfl), hvisit, exec_bind_ok, Nat.zero_add]
    change (headAt (some x) x.1 >>= fun _ => _) = _
    rw [headAt_some, exec_bind_ok]
    rfl

theorem moveCopy_some (throws : Bool) (self : Content Ts) (x : Element Ts) :
    variantMoveCopy throws (represent (some x)).alive Ts.count (represent (some x)).index 0 self =
      .ok (if throws then none else some (x.1.val, some x)) := by
  apply variantMoveCopy_eq x.1.isLt
  rw [Nat.zero_add]
  exact headAt_some x

theorem assign_represent (throws : Bool) (c : Content Ts) :
    (represent none).assign throws (represent c) =
      .ok (if throws && c.isSome then (represent none, true) else (represent c, false)) := by
  unfold Variant.assign
  rw [valid_represent]
  cases c with
  | none => simp
  | some x =>
    rw [if_pos (by rfl), moveCopy_some, exec_bind_ok]
    cases throws <;> rfl

theorem construct_represent (throws : Bool) (x : Element Ts) :
    (represent (some x)).construct throws =
      .ok (if throws then none else some (represent (some x))) := by
  rw [Variant.construct, moveCopy_some, exec_bind_ok]
  cases throws <;> rfl

/-- Construction from a variable without an object counts the alternatives. -/
theorem construct_valueless (throws : Bool) :
    (represent (none : Content Ts)).construct throws = .ok (some ⟨Ts.count, none⟩) := by
  have hcount : Ts.count ≤ (represent (none : Content Ts)).index := Nat.le_of_lt Ts.count_lt
  rw [Variant.construct, variantMoveCopy_nil hcount]
  rfl

theorem emplace_represent (throws : Bool) (c : Content Ts) (x : Element Ts) :
    (represent c).emplace throws x =
      .ok (if throws then (represent none, true) else (represent (some x), false)) := by
  rw [Variant.emplace, clear_represent, exec_bind_ok, variantVisit_eq x.1.isLt, exec_bind_ok,
    Nat.zero_add, if_pos rfl]
  rfl

/-! ## The operations -/

/-- The variants of variables with these contents. -/
def store (a : Nat → Content Ts) : Nat → Variant Ts := fun p => represent (a p)

theorem store_update (a : Nat → Content Ts) (dst : Nat) (c : Content Ts) :
    Function.update (store a) dst (represent c) = store (Function.update a dst c) := by
  funext p
  by_cases hp : p = dst
  · subst hp
    simp only [store, Function.update_self]
  · simp only [store, Function.update_of_ne hp]

@[simp] theorem store_apply (a : Nat → Content Ts) (p : Nat) : store a p = represent (a p) := rfl

section
variable (throws : Bool) (a : Nat → Content Ts) (dst : Nat)

theorem step_construct {src : Nat} {x : Element Ts} (hsrc : a src = some x) :
    step throws (store a) (.construct dst src) =
      .ok (if throws then (store a, true) else (store (Function.update a dst (a src)), false)) := by
  rw [step, store_apply, hsrc, construct_represent, exec_bind_ok, ← store_update]
  cases throws <;> rfl

/-- The new variable has the number of alternatives as its index. -/
theorem step_construct_valueless {src : Nat} (hsrc : a src = none) :
    step throws (store a) (.construct dst src) =
      .ok (Function.update (store a) dst ⟨Ts.count, none⟩, false) := by
  rw [step, store_apply, hsrc, construct_valueless, exec_bind_ok]

theorem step_assign {src : Nat} (hother : dst ≠ src) :
    step throws (store a) (.assign dst src) =
      .ok (if throws && (a src).isSome then (store (Function.update a dst none), true)
        else (store (Function.update a dst (a src)), false)) := by
  have hread : store (Function.update a dst none) src = represent (a src) := by
    rw [store_apply, Function.update_of_ne hother.symm]
  rw [step, store_apply, clear_represent, exec_bind_ok]
  dsimp only
  rw [store_update, hread, assign_represent, exec_bind_ok]
  split <;> dsimp only <;> rw [store_update, Function.update_idem]

/-- The variable has been cleared before it is read. -/
theorem step_assign_self :
    step throws (store a) (.assign dst dst) = .ok (store (Function.update a dst none), false) := by
  have hread : store (Function.update a dst none) dst = represent none := by
    rw [store_apply, Function.update_self]
  rw [step, store_apply, clear_represent, exec_bind_ok]
  dsimp only
  rw [store_update, hread, assign_represent, exec_bind_ok, Option.isSome_none, Bool.and_false]
  simp only [Bool.false_eq_true, if_false]
  rw [store_update, Function.update_idem]

theorem step_emplace (x : Element Ts) :
    step throws (store a) (.emplace dst x) =
      .ok (if throws then (store (Function.update a dst none), true)
        else (store (Function.update a dst (some x)), false)) := by
  rw [step, store_apply, emplace_represent, exec_bind_ok, ← store_update, ← store_update]
  cases throws <;> rfl

end

/-- The operation does to the variants what it is meant to do to their contents. -/
def Refines (throws : Bool) (a : Nat → Content Ts) (op : Op Ts) : Prop :=
  step throws (store a) op = .ok (store (op.apply throws a).1, (op.apply throws a).2)

theorem represent_injective {c c' : Content Ts} (h : represent c = represent c') : c = c' := by
  cases c with
  | none =>
    cases c' with
    | none => rfl
    | some x => exact absurd (congrArg Variant.index h).symm (index_ne_npos x.1)
  | some x =>
    cases c' with
    | none => exact absurd (congrArg Variant.index h) (index_ne_npos x.1)
    | some y => exact congrArg Variant.alive h

theorem construct_refines_iff (throws : Bool) (a : Nat → Content Ts) (dst src : Nat) :
    Refines throws a (.construct dst src) ↔ (a src).isSome = true := by
  unfold Refines
  cases hsrc : a src with
  | none =>
    rw [step_construct_valueless throws a dst hsrc, Op.apply, hsrc, Option.isSome_none,
      Bool.and_false, if_neg Bool.false_ne_true]
    refine iff_of_false (fun h => ?_) Bool.false_ne_true
    have hdst := congrFun (congrArg Prod.fst (Except.ok.inj h)) dst
    dsimp only at hdst
    rw [Function.update_self, store_apply, Function.update_self] at hdst
    exact absurd (congrArg Variant.index hdst) (Nat.ne_of_lt Ts.count_lt)
  | some x =>
    rw [step_construct throws a dst hsrc, Op.apply, hsrc, Option.isSome_some, Bool.and_true]
    refine iff_of_true ?_ rfl
    split <;> rfl

theorem assign_refines_iff (throws : Bool) (a : Nat → Content Ts) (dst src : Nat) :
    Refines throws a (.assign dst src) ↔ (dst = src → (a src).isSome = false) := by
  unfold Refines
  by_cases hself : dst = src
  · subst hself
    rw [step_assign_self, Op.apply, if_pos rfl]
    constructor
    · intro h _
      have hdst := congrFun (congrArg Prod.fst (Except.ok.inj h)) dst
      have hcontent := represent_injective hdst
      dsimp only at hcontent
      rw [Function.update_self] at hcontent
      rw [← hcontent]
      rfl
    · intro h
      have hnone : a dst = none := by simpa using h rfl
      rw [← hnone, Function.update_eq_self]
  · rw [step_assign throws a dst hself, Op.apply, if_neg hself]
    refine iff_of_true ?_ fun h => absurd h hself
    split <;> rfl

theorem emplace_refines (throws : Bool) (a : Nat → Content Ts) (dst : Nat) (x : Element Ts) :
    Refines throws a (.emplace dst x) := by
  unfold Refines
  rw [step_emplace, Op.apply]
  split <;> rfl

/-- Whatever the contents, an operation does what it is meant to do exactly if it is
admissible. -/
theorem variant_preserves_iff (Ts : Alternatives) (throws : Bool) (a : Nat → Content Ts)
    (op : Op Ts) : Refines throws a op ↔ op.Admissible a := by
  cases op with
  | construct dst src => exact construct_refines_iff throws a dst src
  | assign dst src => exact assign_refines_iff throws a dst src
  | emplace dst x => exact iff_of_true (emplace_refines throws a dst x) trivial

/-- `variant<int, bool>`. -/
def intOrBool : Alternatives where
  count := 2
  type i := if i = 0 then Int else Bool
  count_lt := by decide

/-- A variable with an `int` that is assigned to itself loses it, and a copy of a variable
without an object claims to hold a third alternative. -/
theorem intOrBool_self_assign :
    ¬ (∀ (throws : Bool) (a : Nat → Content intOrBool) (op : Op intOrBool), Refines throws a op) ∧
      ¬ Refines false (fun _ => (none : Content intOrBool)) (.construct 1 0) := by
  constructor
  · intro h
    have hself := (assign_refines_iff false _ 0 0).mp
      (h false (fun _ => some ⟨⟨0, Nat.two_pos⟩, (5 : Int)⟩) (.assign 0 0)) rfl
    cases hself
  · intro h
    exact absurd ((construct_refines_iff false _ 1 0).mp h) Bool.false_ne_true

/-! ## Runs -/

/-- A list of operations, each with whether it throws. -/
def run (s : Nat → Variant Ts) : List (Bool × Op Ts) → Exec (Nat → Variant Ts)
  | [] => .ok s
  | (throws, op) :: ops => do
    let (s, _) ← step throws s op
    run s ops

def applyAll (a : Nat → Content Ts) : List (Bool × Op Ts) → Nat → Content Ts
  | [] => a
  | (throws, op) :: ops => applyAll (op.apply throws a).1 ops

/-- Every operation is admissible where it is made. -/
def AllAdmissible (a : Nat → Content Ts) : List (Bool × Op Ts) → Prop
  | [] => True
  | (throws, op) :: ops => op.Admissible a ∧ AllAdmissible (op.apply throws a).1 ops

/-- A run of admissible operations: every variable has the index of the object that is
alive in it, or `(size_t)-1` when there is none. -/
theorem run_refines {a : Nat → Content Ts} {ops : List (Bool × Op Ts)} (h : AllAdmissible a ops) :
    run (store a) ops = .ok (store (applyAll a ops)) := by
  induction ops generalizing a with
  | nil => rfl
  | cons head ops ih =>
    obtain ⟨throws, op⟩ := head
    have hstep : Refines throws a op := (variant_preserves_iff Ts throws a op).mpr h.1
    rw [run, hstep, exec_bind_ok]
    exact ih h.2

end EARanges.Detail
