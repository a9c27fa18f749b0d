import EARanges.Iterator.RangeTraits
import EARanges.Support.InPlace
import EARanges.Support.Responses

/-!
# `to_container_iterator`

range/conversion.hpp. The iterator a container of containers is constructed from: it wraps an
iterator `I` of the outer range and converts each element it reads. Both are driven by the same
operations; the iterator wrapped does what the names of the operations say, by definition.
-/
namespace EARanges.Range
open EARanges.Support EARanges.Iterator

/-- The operations of an iterator, those with a second iterator by its position. -/
inductive Op where
  | preInc | postInc | preDec | postDec
  | plusAssign (n : Int)
  | minusAssign (n : Int)
  | plus (n : Int)
  | minus (n : Int)
  | difference (that : Nat)
  | equal (that : Nat)
  | deref
  | subscript (n : Int)
  deriving DecidableEq, Repr

/-- `self` is a reference to the iterator itself, `dangling` one to an object that is gone. -/
inductive Response (β : Type) where
  | self
  | copy (it : Nat)
  | dangling
  | distance (d : Int)
  | truth (b : Bool)
  | value (x : β)
  deriving DecidableEq, Repr

/-- What `iterator_category` must derive from for the operation to be there. -/
def Op.providedBy (category : Category) : Op → Bool
  | .preInc | .postInc | .equal _ | .deref => true
  | .preDec | .postDec => category == .bidirectional || category == .randomAccess
  | _ => category == .randomAccess

/-- A sequence and the category of its iterators; an iterator is a position. -/
structure Underlying (α : Type) where
  rng : List α
  category : Category

namespace Underlying

variable {α β : Type} (b : Underlying α) (conv : α → β)

/-- How far the name of an operation says the iterator moves. -/
def shift : Op → Int
  | .preInc | .postInc => 1
  | .preDec | .postDec => -1
  | .plusAssign n => n
  | .minusAssign n => -n
  | _ => 0

/-- What the operation returns at position `it`. -/
def response (it : Nat) : Op → Exec (Response β)
  | .preInc | .preDec | .plusAssign _ | .minusAssign _ => .ok .self
  | .postInc | .postDec => .ok (.copy it)
  | .plus n => do
    let it ← jump n b.rng.length it
    .ok (.copy it)
  | .minus n => do
    let it ← jump (-n) b.rng.length it
    .ok (.copy it)
  | .difference that =>
    if that ≤ b.rng.length then .ok (.distance ((it : Int) - that)) else .error .fault
  | .equal that => if that ≤ b.rng.length then .ok (.truth (it == that)) else .error .fault
  | .deref => do
    let x ← Support.deref b.rng it
    .ok (.value (conv x))
  | .subscript n => do
    let it ← jump n b.rng.length it
    let x ← Support.deref b.rng it
    .ok (.value (conv x))

/-- The iterator wrapped, its elements read through `conv`. -/
def step : Responder Nat Op (Response β) := fun op it =>
  if op.providedBy b.category then do
    let target ← jump (shift op) b.rng.length it
    let r ← b.response conv it op
    .ok (target, r)
  else .error .fault

end Underlying

/-- `it_`. -/
structure ToContainerIterator where
  it_ : Nat
  deriving DecidableEq, Repr

namespace ToContainerIterator

variable {α β : Type} (b : Underlying α) (conv : α → β)

def equal (w that : ToContainerIterator) : Exec (ToContainerIterator × Response β) :=
  if that.it_ ≤ b.rng.length then .ok (w, .truth (w.it_ == that.it_)) else .error .fault

/-- `operator*`, with `conv` for `to_container::fn<ValueType>`. -/
def deref (w : ToContainerIterator) : Exec β := do
  let x ← Support.deref b.rng w.it_
  .ok (conv x)

def preInc (w : ToContainerIterator) : Exec (ToContainerIterator × Response β) := do
  let it_ ← incr b.rng w.it_
  .ok ({ it_ }, .self)

def postInc (w : ToContainerIterator) : Exec (ToContainerIterator × Response β) := do
  let tmp := w
  let it_ ← incr b.rng w.it_
  .ok ({ it_ }, .copy tmp.it_)

def preDec (w : ToContainerIterator) : Exec (ToContainerIterator × Response β) := do
  let it_ ← stepBack w.it_
  .ok ({ it_ }, .self)

/-- `operator--(int)`: it increments, and returns a reference to its local `tmp`. -/
def postDec (w : ToContainerIterator) : Exec (ToContainerIterator × Response β) := do
  let it_ ← incr b.rng w.it_
  .ok ({ it_ }, .dangling)

def plusAssign (n : Int) (w : ToContainerIterator) : Exec ToContainerIterator := do
  let it_ ← jump n b.rng.length w.it_
  .ok { it_ }

def minusAssign (n : Int) (w : ToContainerIterator) : Exec ToContainerIterator := do
  let it_ ← jump (-n) b.rng.length w.it_
  .ok { it_ }

/-- `i + n`: `i` is a copy. -/
def plus (n : Int) (i : ToContainerIterator) : Exec ToContainerIterator := plusAssign b n i

def minus (n : Int) (i : ToContainerIterator) : Exec ToContainerIterator := minusAssign b n i

def difference (i j : ToContainerIterator) : Exec (ToContainerIterator × Response β) :=
  if j.it_ ≤ b.rng.length then .ok (i, .distance ((i.it_ : Int) - j.it_)) else .error .fault

/-- `*(*this + n)`. -/
def subscript (n : Int) (w : ToContainerIterator) : Exec β := do
  let i ← plus b n w
  deref b conv i

def call (w : ToContainerIterator) : Op → Exec (ToContainerIterator × Response β)
  | .preInc => preInc b w
  | .postInc => postInc b w
  | .preDec => preDec w
  | .postDec => postDec b w
  | .plusAssign n => do
    let w ← plusAssign b n w
    .ok (w, .self)
  | .minusAssign n => do
    let w ← minusAssign b n w
    .ok (w, .self)
  | .plus n => do
    let i ← plus b n w
    .ok (w, .copy i.it_)
  | .minus n => do
    let i ← minus b n w
    .ok (w, .copy i.it_)
  | .difference that => difference b w ⟨that⟩
  | .equal that => equal b w ⟨that⟩
  | .deref => do
    let x ← deref b conv w
    .ok (w, .value x)
  | .subscript n => do
    let x ← subscript b conv n w
    .ok (w, .value x)

def step : Responder ToContainerIterator Op (Response β) := fun op w =>
  if op.providedBy b.category then call b conv w op else .error .fault

/-- The wrapper stands where the iterator wrapped would. -/
def At (w : ToContainerIterator) (it : Nat) : Prop := w.it_ = it ∧ it ≤ b.rng.length

variable {b conv}

theorem incr_eq_jump (l : List α) (it : Nat) : incr l it = jump 1 l.length it := by
  unfold incr jump
  by_cases h : it < l.length
  · rw [if_pos h, if_pos (by omega)]
    congr 1
  · rw [if_neg h, if_neg (by omega)]

theorem stepBack_eq_jump {len it : Nat} (h : it ≤ len) : stepBack it = jump (-1) len it := by
  unfold stepBack jump
  by_cases hpos : 0 < it
  · rw [if_pos hpos, if_pos (by omega)]
    congr 1
    omega
  · rw [if_neg hpos, if_neg (by omega)]

theorem jump_zero {len it : Nat} (h : it ≤ len) : jump 0 len it = .ok it :=
  jump_eq (Int.add_zero _) h

theorem le_of_jump {n : Int} {len it target : Nat} (h : jump n len it = .ok target) :
    target ≤ len := by
  unfold jump at h
  split at h
  next hin =>
    rw [Except.ok.injEq] at h
    omega
  next => cases h

/-- An operation that moves the iterator and does nothing else. -/
theorem alike_of_jump {n : Int} {it : Nat} (r : Response β) :
    Responder.Alike (At b) (do
      let it_ ← jump n b.rng.length it
      .ok ({ it_ }, r)) (do
      let target ← jump n b.rng.length it
      .ok (target, r)) := by
  cases hjump : jump n b.rng.length it with
  | error e => exact .error e
  | ok target => exact .ok r ⟨rfl, le_of_jump hjump⟩

/-- An operation that leaves the iterator where it is. -/
theorem alike_of_response {op : Op} {it : Nat} (hit : it ≤ b.rng.length)
    (hshift : Underlying.shift op = 0)
    (hcall : call b conv ⟨it⟩ op = do
      let r ← b.response conv it op
      .ok (⟨it⟩, r)) :
    Responder.Alike (At b) (call b conv ⟨it⟩ op) (do
      let target ← jump (Underlying.shift op) b.rng.length it
      let r ← b.response conv it op
      .ok (target, r)) := by
  rw [hcall, hshift, jump_zero hit, exec_bind_ok]
  cases b.response conv it op with
  | error e => exact .error e
  | ok r => exact .ok r ⟨rfl, hit⟩

/-- Every operation but `operator--(int)` is that of the iterator wrapped. -/
theorem call_alike {op : Op} (hop : op ≠ .postDec) {it : Nat} (hit : it ≤ b.rng.length) :
    Responder.Alike (At b) (call b conv ⟨it⟩ op) (do
      let target ← jump (Underlying.shift op) b.rng.length it
      let r ← b.response conv it op
      .ok (target, r)) := by
  cases op with
  | postDec => exact absurd rfl hop
  | preInc =>
    simp only [call, preInc, incr_eq_jump]
    exact alike_of_jump .self
  | postInc =>
    simp only [call, postInc, incr_eq_jump]
    exact alike_of_jump (.copy it)
  | preDec =>
    simp only [call, preDec, stepBack_eq_jump hit]
    exact alike_of_jump .self
  | plusAssign n =>
    simp only [call, plusAssign, bind_assoc, exec_bind_ok]
    exact alike_of_jump .self
  | minusAssign n =>
    simp only [call, minusAssign, bind_assoc, exec_bind_ok]
    exact alike_of_jump .self
  | plus n =>
    refine alike_of_response hit rfl ?_
    simp only [call, plus, plusAssign, Underlying.response, bind_assoc, exec_bind_ok]
  | minus n =>
    refine alike_of_response hit rfl ?_
    simp only [call, minus, minusAssign, Underlying.response, bind_assoc, exec_bind_ok]
  | difference that =>
    refine alike_of_response hit rfl ?_
    simp only [call, difference, Underlying.response]
    split <;> rfl
  | equal that =>
    refine alike_of_response hit rfl ?_
    simp only [call, equal, Underlying.response]
    split <;> rfl
  | deref =>
    refine alike_of_response hit rfl ?_
    simp only [call, deref, Underlying.response, bind_assoc, exec_bind_ok]
  | subscript n =>
    refine alike_of_response hit rfl ?_
    simp only [call, subscript, plus, plusAssign, deref, Underlying.response, bind_assoc,
      exec_bind_ok]

theorem step_alike {op : Op} (hop : op ≠ .postDec) (w : ToContainerIterator) (it : Nat)
    (hat : At b w it) : Responder.Alike (At b) (step b conv op w) (b.step conv op it) := by
  obtain ⟨rfl, hit⟩ := hat
  unfold step Underlying.step
  split
  · exact call_alike hop hit
  · exact .error _

/-- Chains without `operator--(int)` are simulated. -/
theorem run_eq {ops : List Op} (hops : .postDec ∉ ops) {it q : Nat} {rs : List (Response β)}
    (hit : it ≤ b.rng.length) (h : Responder.run (b.step conv) ops it = .ok (q, rs)) :
    Responder.run (step b conv) ops ⟨it⟩ = .ok (⟨q⟩, rs) := by
  have halike : Responder.Alike (At b) (Responder.run (step b conv) ops ⟨it⟩)
      (Responder.run (b.step conv) ops it) :=
    Responder.run_alike (fun op hop => step_alike (fun heq => hops (heq ▸ hop))) ⟨rfl, hit⟩
  rw [h] at halike
  obtain ⟨⟨_⟩, hrun, rfl, _⟩ := halike.of_ok
  exact hrun

end ToContainerIterator

namespace Underlying

variable {α β : Type} {b : Underlying α} {conv : α → β}

theorem step_eq_ok {op : Op} {it q : Nat} {r : Response β} :
    b.step conv op it = .ok (q, r) ↔ op.providedBy b.category = true ∧
      jump (shift op) b.rng.length it = .ok q ∧ b.response conv it op = .ok r := by
  unfold step
  split
  next hprovided =>
    simp only [exec_bind_eq_ok, Except.ok.injEq, Prod.mk.injEq, hprovided, true_and]
    constructor
    · rintro ⟨_, hjump, _, hr, rfl, rfl⟩
      exact ⟨hjump, hr⟩
    · rintro ⟨hjump, hr⟩
      exact ⟨q, hjump, r, hr, rfl, rfl⟩
  next hprovided => simp [hprovided]

/-- The iterator wrapped moves as far as the name says. -/
theorem eq_add_shift {op : Op} {it q : Nat} {r : Response β}
    (h : b.step conv op it = .ok (q, r)) : (q : Int) = it + shift op := by
  obtain ⟨_, hjump, _⟩ := step_eq_ok.mp h
  unfold jump at hjump
  split at hjump
  next hin =>
    rw [Except.ok.injEq] at hjump
    omega
  next => cases hjump

theorem le_length {op : Op} {it q : Nat} {r : Response β} (h : b.step conv op it = .ok (q, r)) :
    q ≤ b.rng.length :=
  ToContainerIterator.le_of_jump (step_eq_ok.mp h).2.1

theorem run_le_length {ops : List Op} {it q : Nat} {rs : List (Response β)}
    (hit : it ≤ b.rng.length) (h : Responder.run (b.step conv) ops it = .ok (q, rs)) :
    q ≤ b.rng.length := by
  induction ops generalizing it rs with
  | nil =>
    obtain ⟨rfl, _⟩ := Prod.mk.inj (Except.ok.inj h)
    exact hit
  | cons op ops ih =>
    obtain ⟨t, r, rs', hhead, htail, _⟩ := Responder.run_cons_eq_ok.mp h
    exact ih (le_length hhead) htail

/-- `+= n` and then `-= n`. -/
theorem run_undo {n : Int} {it q : Nat} {r : Response β} (hit : it ≤ b.rng.length)
    (h : b.step conv (.plusAssign n) it = .ok (q, r)) :
    Responder.run (b.step conv) [.plusAssign n, .minusAssign n] it = .ok (it, [.self, .self]) := by
  have hmove := eq_add_shift h
  obtain ⟨hprovided, hjump, _⟩ := step_eq_ok.mp h
  have hforth : b.step conv (.plusAssign n) it = .ok (q, .self) :=
    step_eq_ok.mpr ⟨hprovided, hjump, rfl⟩
  have hback : b.step conv (.minusAssign n) q = .ok (it, .self) := by
    refine step_eq_ok.mpr ⟨hprovided, jump_eq ?_ hit, rfl⟩
    simp only [shift] at hmove ⊢
    omega
  simp only [Responder.run, hforth, hback, exec_bind_ok]

theorem response_ne_dangling (op : Op) (it : Nat) :
    b.response conv it op ≠ .ok .dangling := by
  cases op <;> simp [response, exec_bind_eq_ok, ite_eq_iff]

/-- The iterator wrapped returns no reference to an object that is gone. -/
theorem dangling_notMem {ops : List Op} {it q : Nat} {rs : List (Response β)}
    (h : Responder.run (b.step conv) ops it = .ok (q, rs)) : .dangling ∉ rs := by
  induction ops generalizing it rs with
  | nil =>
    obtain ⟨_, rfl⟩ := Prod.mk.inj (Except.ok.inj h)
    exact List.not_mem_nil
  | cons op ops ih =>
    obtain ⟨t, r, rs', hhead, htail, rfl⟩ := Responder.run_cons_eq_ok.mp h
    rw [List.mem_cons, not_or]
    refine ⟨?_, ih htail⟩
    rintro rfl
    exact response_ne_dangling op it (step_eq_ok.mp hhead).2.2

end Underlying

namespace ToContainerIterator

variable {α β : Type} {b : Underlying α} {conv : α → β}

/-- `operator--(int)` returns one. -/
theorem dangling_mem {ops : List Op} (hops : .postDec ∈ ops) {w u : ToContainerIterator}
    {rs : List (Response β)} (h : Responder.run (step b conv) ops w = .ok (u, rs)) :
    .dangling ∈ rs := by
  induction ops generalizing w rs with
  | nil => cases hops
  | cons op ops ih =>
    obtain ⟨t, r, rs', hhead, htail, rfl⟩ := Responder.run_cons_eq_ok.mp h
    obtain rfl | hops := List.mem_cons.mp hops
    · have hr : r = .dangling := by
        unfold step at hhead
        split at hhead
        · obtain ⟨it, _, heq⟩ := exec_bind_eq_ok.mp hhead
          exact (Prod.mk.inj (Except.ok.inj heq)).2.symm
        · cases hhead
      rw [hr]
      exact List.mem_cons_self ..
    · exact List.mem_cons_of_mem _ (ih hops htail)

end ToContainerIterator

section
variable {α β : Type}

/-- The chain of operations starts and stays inside the sequence. -/
def Inside (b : Underlying α) (conv : α → β) (ops : List Op) (it : Nat) : Prop :=
  it ≤ b.rng.length ∧ ∃ q rs, Responder.run (b.step conv) ops it = .ok (q, rs)

/-- Along a chain the wrapper stands and answers as the iterator wrapped does, and behind it
`+= n` and then `-= n` lead back. -/
structure Follows (b : Underlying α) (conv : α → β) (ops : List Op) (it : Nat) : Prop where
  run : ∀ q rs, Responder.run (b.step conv) ops it = .ok (q, rs) →
    Responder.run (ToContainerIterator.step b conv) ops ⟨it⟩ = .ok (⟨q⟩, rs)
  undo : ∀ n q rs, Responder.run (b.step conv) ops it = .ok (q, rs) →
    (∃ s, b.step conv (.plusAssign n) q = .ok s) →
    Responder.run (ToContainerIterator.step b conv) (ops ++ [.plusAssign n, .minusAssign n]) ⟨it⟩ =
      .ok (⟨q⟩, rs ++ [.self, .self])

/-- The wrapper follows along the chains without `operator--(int)`, and along no other. -/
theorem toContainerIterator_follows_iff (b : Underlying α) (conv : α → β) (ops : List Op)
    (it : Nat) (hinside : Inside b conv ops it) :
    Follows b conv ops it ↔ .postDec ∉ ops := by
  obtain ⟨hit, q, rs, hrun⟩ := hinside
  constructor
  · intro hfollows hops
    exact Underlying.dangling_notMem hrun (ToContainerIterator.dangling_mem hops
      (hfollows.run q rs hrun))
  · intro hops
    refine ⟨fun q rs h => ToContainerIterator.run_eq hops hit h, ?_⟩
    rintro n q rs h ⟨⟨q', r⟩, hforth⟩
    have hundo := Underlying.run_undo (Underlying.run_le_length hit h) hforth
    refine ToContainerIterator.run_eq ?_ hit (Responder.run_append h hundo)
    simp [hops]

theorem toContainerIterator_follows_iff_three :
    Follows ⟨[10, 20, 30], .randomAccess⟩ id [.preInc, .plus 2, .postInc, .preDec, .deref] 0 ↔
      .postDec ∉ [Op.preInc, .plus 2, .postInc, .preDec, .deref] :=
  toContainerIterator_follows_iff ⟨[10, 20, 30], .randomAccess⟩ id _ 0
    ⟨by decide, 1, [.self, .copy 3, .copy 1, .self, .value 20], by decide⟩

/-- `it--` at the second of two elements moves `it` behind the last. -/
theorem toContainerIterator_postDec : ¬ Follows ⟨[10, 20], .bidirectional⟩ id [.postDec] 1 := by
  intro hfollows
  have hrun := hfollows.run 0 [.copy 1] (by decide)
  exact absurd hrun (by decide)

end

end EARanges.Range
