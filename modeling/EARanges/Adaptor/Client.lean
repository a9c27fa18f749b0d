import EARanges.Adaptor.Interface
import EARanges.Support.InPlace
import EARanges.Support.Responses
import Mathlib.Data.List.Forall2

/-!
# Programs that use a range

A program keeps iterators and sentinels of a range and makes requests of them: it obtains new
ones, moves them, and asks. `client` answers as the range does, `positions` as the list does in
which an iterator is a position; the latter refuses what the types of the range do not offer and
what leaves the list. `client_refines` says that a range of a list answers every program as the
list does.
-/
namespace EARanges.Adaptor
open EARanges.Support

inductive Comparison where
  | lt | le | gt | ge
  deriving DecidableEq, Repr

/-- `0 < right - left` and so on. -/
def Comparison.holds (c : Comparison) (d : Int) : Bool :=
  match c with
  | .lt => decide (0 < d)
  | .le => decide (0 ≤ d)
  | .gt => decide (d < 0)
  | .ge => decide (d ≤ 0)

/-- Where a new iterator comes from. -/
inductive Make where
  | begin | endIter | copy (i : Nat)
  deriving Repr

/-- `++it`, `--it`, `it += n`, `it -= n`, and `advance` with a count, a sentinel or both. -/
inductive Move where
  | inc | dec | add (n : Int) | sub (n : Int) | advance (n : Int) | toEnd (k : Nat)
  | bounded (n k : Nat)
  deriving Repr

inductive Ask where
  | read (i : Nat) | subscript (i : Nat) (n : Int) | equal (i j : Nat) | atEnd (i k : Nat)
  | difference (i j : Nat) | compare (c : Comparison) (i j : Nat) | toSentinel (i k : Nat)
  | iterDistance (i k : Nat) | iterDistanceCompare (i k : Nat) (n : Int)
  | distance | distanceCompare (n : Int) | size | empty | front | back | index (n : Int)
  | at_ (n : Int) | rangesAt (n : Int) | rangesIndex (n : Int) | print
  deriving Repr

inductive Request where
  | make (m : Make) | sentinel | move (i : Nat) (m : Move) | ask (a : Ask)
  deriving Repr

inductive Answer (β : Type) where
  | done | element (x : β) | truth (b : Bool) | number (n : Int)
  | checked (r : Except OutOfRange β) | text (s : String)

variable {β : Type}

section
variable (R : RangeModel β)

structure Client where
  view : R.State
  its : List R.Iter
  ends : List R.Sent

variable {R}

def makeIter (its : List R.Iter) : Make → Effect R.State R.Iter
  | .begin => R.begin
  | .endIter => R.endIter
  | .copy i => .ofExec (deref its i)

def moveIter (fuel : Nat) (ends : List R.Sent) :
    Move → R.Iter → Effect R.State (R.Iter × Answer β)
  | .inc, it => do return (← R.next it, .done)
  | .dec, it => do return (← R.prev it, .done)
  | .add n, it => do return (← R.advance n it, .done)
  | .sub n, it => do return (← R.advance (-n) it, .done)
  | .advance n, it => do return (← advanceN R n it, .done)
  | .toEnd k, it => do
    let last ← .ofExec (deref ends k)
    return (← advanceToEnd R fuel last it, .done)
  | .bounded n k, it => do
    let last ← .ofExec (deref ends k)
    let (it, rest) ← advanceEnd R fuel n last it
    return (it, .number rest)

def askIter (fuel : Nat) (put : β → String) (its : List R.Iter) (ends : List R.Sent) :
    Ask → Effect R.State (Answer β)
  | .read i => do
    let it ← .ofExec (deref its i)
    return .element (← R.read it)
  | .subscript i n => do
    let it ← .ofExec (deref its i)
    return .element (← subscript R it n)
  | .equal i j => do
    let left ← .ofExec (deref its i)
    let right ← .ofExec (deref its j)
    return .truth (← R.equal left right)
  | .atEnd i k => do
    let it ← .ofExec (deref its i)
    let last ← .ofExec (deref ends k)
    return .truth (← R.reached it last)
  | .difference i j => do
    let left ← .ofExec (deref its i)
    let right ← .ofExec (deref its j)
    return .number (← R.distanceTo left right)
  | .compare c i j => do
    let left ← .ofExec (deref its i)
    let right ← .ofExec (deref its j)
    return .truth (c.holds (← R.distanceTo left right))
  | .toSentinel i k => do
    let it ← .ofExec (deref its i)
    let last ← .ofExec (deref ends k)
    return .number (← R.distanceToEnd it last)
  | .iterDistance i k => do
    let it ← .ofExec (deref its i)
    let last ← .ofExec (deref ends k)
    return .number (← iterDistance R fuel it last)
  | .iterDistanceCompare i k n => do
    let it ← .ofExec (deref its i)
    let last ← .ofExec (deref ends k)
    return .number (← iterDistanceCompare R it last n)
  | .distance => do return .number (← distance R fuel)
  | .distanceCompare n => do return .number (← distanceCompare R fuel n)
  | .size => do return .number (← R.size)
  | .empty => do return .truth (← empty R)
  | .front => do return .element (← front R)
  | .back => do return .element (← back R)
  | .index n => do return .element (← index R n)
  | .at_ n => do return .checked (← at_ R n)
  | .rangesAt n => do return .checked (← rangesAt R fuel n)
  | .rangesIndex n => do return .element (← rangesIndex R fuel n)
  | .print => do return .text (← printRng R put fuel)

def client (fuel : Nat) (put : β → String) : Responder (Client R) Request (Answer β)
  | .make m, s => do
    let (it, view) ← makeIter s.its m s.view
    .ok ({ s with view := view, its := s.its ++ [it] }, .done)
  | .sentinel, s => do
    let (e, view) ← R.end_ s.view
    .ok ({ s with view := view, ends := s.ends ++ [e] }, .done)
  | .move i m, s => do
    let it ← deref s.its i
    let ((it, answer), view) ← moveIter fuel s.ends m it s.view
    .ok ({ s with view := view, its := s.its.set i it }, answer)
  | .ask a, s => do
    let (answer, view) ← askIter fuel put s.its s.ends a s.view
    .ok ({ s with view := view }, answer)

end

/-! ## The list -/

/-- The positions of the iterators, and how many sentinels there are. -/
structure Positions where
  its : List Nat
  ends : Nat
  deriving DecidableEq, Repr

def allow (p : Prop) [Decidable p] : Exec Unit := if p then .ok () else .error .fault

section
variable (caps : Capabilities) (xs : List β)

def makePosition (its : List Nat) : Make → Exec Nat
  | .begin => .ok 0
  | .endIter => do
    allow (caps.common = true ∧ (caps.bidirectional = true ∨ 0 < its.length))
    .ok xs.length
  | .copy i => deref its i

/-- The position `n` away, if the list has it. -/
def offset (p : Nat) (n : Int) : Exec Nat := do
  allow (0 ≤ p + n ∧ p + n ≤ xs.length)
  .ok (p + n).toNat

def movePosition (ends : Nat) : Move → Nat → Exec (Nat × Answer β)
  | .inc, p => do
    allow (p < xs.length)
    .ok (p + 1, .done)
  | .dec, p => do
    allow (caps.bidirectional = true ∧ 0 < p)
    .ok (p - 1, .done)
  | .add n, p => do
    allow (caps.randomAccess = true)
    let q ← offset xs p n
    .ok (q, .done)
  | .sub n, p => do
    allow (caps.randomAccess = true)
    let q ← offset xs p (-n)
    .ok (q, .done)
  | .advance n, p => do
    allow (0 ≤ n ∨ caps.bidirectional = true)
    let q ← offset xs p n
    .ok (q, .done)
  | .toEnd k, _ => do
    allow (k < ends)
    .ok (xs.length, .done)
  | .bounded n k, p => do
    allow (k < ends)
    let q := min (p + n) xs.length
    .ok (q, .number (p + n - q : Nat))

def askPosition (put : β → String) (its : List Nat) (ends : Nat) : Ask → Exec (Answer β)
  | .read i => do
    let p ← deref its i
    let x ← deref xs p
    .ok (.element x)
  | .subscript i n => do
    let p ← deref its i
    allow (caps.randomAccess = true)
    let q ← offset xs p n
    let x ← deref xs q
    .ok (.element x)
  | .equal i j => do
    let p ← deref its i
    let q ← deref its j
    .ok (.truth (decide (p = q)))
  | .atEnd i k => do
    let p ← deref its i
    allow (k < ends)
    .ok (.truth (decide (p = xs.length)))
  | .difference i j => do
    let p ← deref its i
    let q ← deref its j
    allow (caps.sizedIter = true)
    .ok (.number (q - p))
  | .compare c i j => do
    let p ← deref its i
    let q ← deref its j
    allow (caps.sizedIter = true)
    .ok (.truth (c.holds (q - p)))
  | .toSentinel i k => do
    let p ← deref its i
    allow (k < ends ∧ caps.sizedSentinel = true)
    .ok (.number (xs.length - p))
  | .iterDistance i k => do
    let p ← deref its i
    allow (k < ends)
    .ok (.number (xs.length - p))
  | .iterDistanceCompare i k n => do
    let p ← deref its i
    allow (k < ends)
    .ok (.number (sign (xs.length - p) n))
  | .distance => .ok (.number xs.length)
  | .distanceCompare n => .ok (.number (sign xs.length n))
  | .size => do
    allow (caps.sized = true)
    .ok (.number xs.length)
  | .empty => .ok (.truth xs.isEmpty)
  | .front => do
    let x ← deref xs 0
    .ok (.element x)
  | .back => do
    allow (caps.common = true ∧ caps.bidirectional = true ∧ 0 < xs.length)
    let x ← deref xs (xs.length - 1)
    .ok (.element x)
  | .index n => do
    allow (caps.randomAccess = true ∧ 0 ≤ n)
    let x ← deref xs n.toNat
    .ok (.element x)
  | .at_ n => do
    allow (caps.randomAccess = true ∧ caps.sized = true)
    .ok (.checked (atOrThrow "view_interface::at" xs n))
  | .rangesAt n => do
    allow (caps.randomAccess = true ∧ caps.sized = true)
    .ok (.checked (atOrThrow "ranges::at" xs n))
  | .rangesIndex n => do
    allow (caps.randomAccess = true ∧ 0 ≤ n)
    let x ← deref xs n.toNat
    .ok (.element x)
  | .print => .ok (.text (listing put xs))

def positions (put : β → String) : Responder Positions Request (Answer β)
  | .make m, t => do
    let p ← makePosition caps xs t.its m
    .ok ({ t with its := t.its ++ [p] }, .done)
  | .sentinel, t => .ok ({ t with ends := t.ends + 1 }, .done)
  | .move i m, t => do
    let p ← deref t.its i
    let (p, answer) ← movePosition caps xs t.ends m p
    .ok ({ t with its := t.its.set i p }, answer)
  | .ask a, t => do
    let answer ← askPosition caps xs put t.its t.ends a
    .ok (t, answer)

end

/-! ## The range answers as the list -/

theorem allow_eq_ok {p : Prop} [Decidable p] {u : Unit} : allow p = .ok u ↔ p := by
  unfold allow
  split <;> simp_all

theorem offset_eq_ok {xs : List β} {p q : Nat} {n : Int} :
    offset xs p n = .ok q ↔ (p : Int) + n = q ∧ q ≤ xs.length := by
  simp only [offset, exec_bind_eq_ok, allow_eq_ok, Except.ok.injEq, exists_const]
  omega

section
variable {ι : Type} {At : Nat → ι → Prop} {ps : List Nat} {cs : List ι}

/-- The iterator behind a position that a program has. -/
theorem at_of_deref (h : List.Forall₂ At ps cs) {i p : Nat} (hp : deref ps i = .ok p) :
    ∃ c, deref cs i = .ok c ∧ At p c := by
  induction h generalizing i with
  | nil => cases hp
  | cons hhead _ ih =>
    cases i with
    | zero =>
      obtain rfl := Except.ok.inj hp
      exact ⟨_, rfl, hhead⟩
    | succ i => exact ih hp

theorem forall₂_set (h : List.Forall₂ At ps cs) (i : Nat) {p : Nat} {c : ι} (hc : At p c) :
    List.Forall₂ At (ps.set i p) (cs.set i c) := by
  induction h generalizing i with
  | nil => exact .nil
  | cons hhead htail ih =>
    cases i with
    | zero => exact .cons hc htail
    | succ i => exact .cons hhead (ih i)

theorem ne_nil_of_deref {α : Type} {l : List α} {i : Nat} {x : α} (h : deref l i = .ok x) :
    l ≠ [] := by
  rintro rfl
  cases h

end

variable {R : RangeModel β} {xs : List β} {Inv : Phase → R.State → Prop}
  {At : Nat → R.Iter → Prop} {AtEnd : R.Sent → Prop} {its : List R.Iter} {ends : List R.Sent}
  {ps : List Nat} {fuel : Nat} {put : β → String} {phase : Phase}

theorem its_give (hits : List.Forall₂ At ps its) {i p : Nat} (hp : deref ps i = .ok p) :
    Gives (Inv phase) (.ofExec (deref its i)) (At p) := by
  obtain ⟨c, hc, hat⟩ := at_of_deref hits hp
  exact .ofExec hc hat

theorem ends_give (hends : ∀ e ∈ ends, AtEnd e) {k : Nat} (hk : k < ends.length) :
    Gives (Inv phase) (.ofExec (deref ends k)) AtEnd :=
  .ofExec (deref_eq hk) (hends _ (List.getElem_mem hk))

theorem makeIter_yields (h : Presents R xs Inv At AtEnd) (hits : List.Forall₂ At ps its)
    (hlive : ps ≠ [] → phase = .live) {m : Make} {p : Nat}
    (hrun : makePosition R.caps xs ps m = .ok p) :
    Yields (Inv phase) (makeIter its m) (Inv .live) (At p) := by
  have hidle : ∀ s, Inv phase s → Inv .idle s := by
    cases phase with
    | idle => exact fun s hs => hs
    | live => exact h.idle
  cases m with
  | begin =>
    obtain rfl := Except.ok.inj hrun
    exact h.begin.weaken hidle
  | endIter =>
    simp only [makePosition, exec_bind_eq_ok, allow_eq_ok, Except.ok.injEq, exists_const] at hrun
    obtain ⟨⟨hcommon, hback⟩, rfl⟩ := hrun
    rcases hback with hbidir | hpos
    · exact (h.endIter_yields hcommon hbidir).weaken hidle
    · obtain rfl := hlive (List.length_pos_iff.mp hpos)
      exact h.endIter_gives hcommon .live
  | copy i =>
    obtain rfl := hlive (ne_nil_of_deref hrun)
    exact its_give hits hrun

theorem moved {m : Effect R.State R.Iter} {q : Nat} (h : Gives (Inv .live) m (At q))
    (a : Answer β) : Gives (Inv .live) (do return (← m, a)) fun r => At q r.1 ∧ r.2 = a := by
  apply h.bind
  intro c hc
  exact .pure ⟨hc, rfl⟩

theorem answered {α : Type} {m : Effect R.State α} {x : α} (h : Gives (Inv phase) m (· = x))
    (f : α → Answer β) : Gives (Inv phase) (do return f (← m)) (· = f x) := by
  apply h.bind
  rintro y rfl
  exact .pure rfl

theorem moveIter_gives (h : Presents R xs Inv At AtEnd) (hfuel : xs.length < fuel)
    (hends : ∀ e ∈ ends, AtEnd e) {m : Move} {p q : Nat} {it : R.Iter} {a : Answer β}
    (hit : At p it) (hrun : movePosition R.caps xs ends.length m p = .ok (q, a)) :
    Gives (Inv .live) (moveIter fuel ends m it) fun r => At q r.1 ∧ r.2 = a := by
  cases m <;> simp only [movePosition, exec_bind_eq_ok, allow_eq_ok, offset_eq_ok,
    Except.ok.injEq, Prod.mk.injEq, exists_const] at hrun
  case inc =>
    obtain ⟨hlt, rfl, rfl⟩ := hrun
    exact moved (h.next hit hlt) _
  case dec =>
    obtain ⟨⟨hbidir, hpos⟩, rfl, rfl⟩ := hrun
    rw [← Nat.sub_add_cancel hpos] at hit
    exact moved (h.prev hbidir hit) _
  case add n =>
    obtain ⟨hrandom, q, ⟨hq, hle⟩, rfl, rfl⟩ := hrun
    exact moved (h.advance hrandom hit hq hle) _
  case sub n =>
    obtain ⟨hrandom, q, ⟨hq, hle⟩, rfl, rfl⟩ := hrun
    exact moved (h.advance hrandom hit hq hle) _
  case advance n =>
    obtain ⟨hback, q, ⟨hq, hle⟩, rfl, rfl⟩ := hrun
    exact moved (advanceN_gives h hit hq hle hback) _
  case toEnd k =>
    obtain ⟨hk, rfl, rfl⟩ := hrun
    apply (ends_give hends hk).bind
    intro e he
    exact moved (advanceToEnd_gives h hit he hfuel) _
  case bounded n k =>
    obtain ⟨hk, rfl, rfl⟩ := hrun
    apply (ends_give hends hk).bind
    intro e he
    apply (advanceEnd_gives h hit he hfuel).bind
    rintro ⟨c, rest⟩ ⟨hc, rfl⟩
    exact .pure ⟨hc, rfl⟩

theorem askIter_gives (h : Presents R xs Inv At AtEnd) (hfuel : xs.length < fuel)
    (hits : List.Forall₂ At ps its) (hends : ∀ e ∈ ends, AtEnd e) {a : Ask} {r : Answer β}
    (hrun : askPosition R.caps xs put ps ends.length a = .ok r)
    (hlive : ps ≠ [] → phase = .live) :
    Gives (Inv phase) (askIter fuel put its ends a) (· = r) := by
  cases a <;> simp only [askPosition, exec_bind_eq_ok, allow_eq_ok, offset_eq_ok,
    Except.ok.injEq, exists_const] at hrun
  case read i =>
    obtain ⟨p, hp, x, hx, rfl⟩ := hrun
    obtain rfl := hlive (ne_nil_of_deref hp)
    apply (its_give hits hp).bind
    intro c hc
    exact answered (h.read hc (get_of_deref hx)) _
  case subscript i n =>
    obtain ⟨p, hp, hrandom, q, ⟨hq, _⟩, x, hx, rfl⟩ := hrun
    obtain rfl := hlive (ne_nil_of_deref hp)
    apply (its_give hits hp).bind
    intro c hc
    exact answered (subscript_gives h hrandom hc hq (get_of_deref hx)) _
  case equal i j =>
    obtain ⟨p, hp, q, hq, rfl⟩ := hrun
    obtain rfl := hlive (ne_nil_of_deref hp)
    apply (its_give hits hp).bind
    intro c hc
    apply (its_give hits hq).bind
    intro d hd
    exact answered (h.equal hc hd) _
  case atEnd i k =>
    obtain ⟨p, hp, hk, rfl⟩ := hrun
    obtain rfl := hlive (ne_nil_of_deref hp)
    apply (its_give hits hp).bind
    intro c hc
    apply (ends_give hends hk).bind
    intro e he
    exact answered (h.reached hc he) _
  case difference i j =>
    obtain ⟨p, hp, q, hq, hsized, rfl⟩ := hrun
    obtain rfl := hlive (ne_nil_of_deref hp)
    apply (its_give hits hp).bind
    intro c hc
    apply (its_give hits hq).bind
    intro d hd
    exact answered (h.distanceTo hsized hc hd) _
  case compare o i j =>
    obtain ⟨p, hp, q, hq, hsized, rfl⟩ := hrun
    obtain rfl := hlive (ne_nil_of_deref hp)
    apply (its_give hits hp).bind
    intro c hc
    apply (its_give hits hq).bind
    intro d hd
    exact answered (h.distanceTo hsized hc hd) fun n => .truth (o.holds n)
  case toSentinel i k =>
    obtain ⟨p, hp, ⟨hk, hsized⟩, rfl⟩ := hrun
    obtain rfl := hlive (ne_nil_of_deref hp)
    apply (its_give hits hp).bind
    intro c hc
    apply (ends_give hends hk).bind
    intro e he
    exact answered (h.distanceToEnd hsized hc he) _
  case iterDistance i k =>
    obtain ⟨p, hp, hk, rfl⟩ := hrun
    obtain rfl := hlive (ne_nil_of_deref hp)
    apply (its_give hits hp).bind
    intro c hc
    apply (ends_give hends hk).bind
    intro e he
    exact answered (iterDistance_gives h hc he hfuel) _
  case iterDistanceCompare i k n =>
    obtain ⟨p, hp, hk, rfl⟩ := hrun
    obtain rfl := hlive (ne_nil_of_deref hp)
    apply (its_give hits hp).bind
    intro c hc
    apply (ends_give hends hk).bind
    intro e he
    exact answered (iterDistanceCompare_gives h hc he) _
  case distance =>
    obtain rfl := hrun
    exact answered (distance_gives h hfuel phase) _
  case distanceCompare n =>
    obtain rfl := hrun
    exact answered (distanceCompare_gives h hfuel phase) _
  case size =>
    obtain ⟨hsized, rfl⟩ := hrun
    exact answered (h.size hsized phase) fun n => .number n
  case empty =>
    obtain rfl := hrun
    exact answered (h.gives_of_yields (empty_gives h) phase) _
  case front =>
    obtain ⟨x, hx, rfl⟩ := hrun
    exact answered (h.gives_of_yields (front_gives h (get_of_deref hx)) phase) _
  case back =>
    obtain ⟨⟨hcommon, hbidir, _⟩, x, hx, rfl⟩ := hrun
    have hlast := get_of_deref hx
    rw [← List.getLast?_eq_getElem?] at hlast
    exact answered (h.gives_of_yields (back_gives h hcommon hbidir hlast) phase) _
  case index n =>
    obtain ⟨⟨hrandom, hn⟩, x, hx, rfl⟩ := hrun
    have hget := get_of_deref hx
    exact answered (h.gives_of_yields (index_gives h hrandom hn hget) phase) _
  case at_ n =>
    obtain ⟨⟨hrandom, hsized⟩, rfl⟩ := hrun
    exact answered (at_gives h hrandom hsized phase n) _
  case rangesAt n =>
    obtain ⟨⟨hrandom, _⟩, rfl⟩ := hrun
    exact answered (rangesAt_gives h hrandom hfuel phase n) _
  case rangesIndex n =>
    obtain ⟨⟨hrandom, hn⟩, x, hx, rfl⟩ := hrun
    exact answered (rangesIndex_gives h hrandom hfuel phase hn (get_of_deref hx)) _
  case print =>
    obtain rfl := hrun
    exact answered (h.gives_of_yields (printRng_gives h put hfuel) phase) _

/-! ## Whole programs -/

/-- The iterators and sentinels of the program are those of the range at the positions. -/
structure Follows (Inv : Phase → R.State → Prop) (At : Nat → R.Iter → Prop)
    (AtEnd : R.Sent → Prop) (phase : Phase) (s : Client R) (t : Positions) : Prop where
  inv : Inv phase s.view
  live : t.its ≠ [] → phase = .live
  its : List.Forall₂ At t.its s.its
  ends : ∀ e ∈ s.ends, AtEnd e
  count : s.ends.length = t.ends

/-- One request. -/
theorem client_step (h : Presents R xs Inv At AtEnd) (hfuel : xs.length < fuel) (op : Request)
    {s : Client R} {t t' : Positions} {r : Answer β} (hrel : Follows Inv At AtEnd phase s t)
    (hrun : positions R.caps xs put op t = .ok (t', r)) :
    ∃ s', client fuel put op s = .ok (s', r) ∧ ∃ phase, Follows Inv At AtEnd phase s' t' := by
  obtain ⟨hinv, hlive, hits, hends, hcount⟩ := hrel
  cases op with
  | make m =>
    simp only [positions, exec_bind_eq_ok, Except.ok.injEq, Prod.mk.injEq] at hrun
    obtain ⟨p, hp, rfl, rfl⟩ := hrun
    obtain ⟨c, view, hc, hview, hat⟩ := makeIter_yields h hits hlive hp s.view hinv
    refine ⟨{ s with view := view, its := s.its ++ [c] }, ?_, .live, hview, fun _ => rfl, ?_,
      hends, hcount⟩
    · rw [client, hc]
      rfl
    · exact List.rel_append hits (.cons hat .nil)
  | sentinel =>
    simp only [positions, Except.ok.injEq, Prod.mk.injEq] at hrun
    obtain ⟨rfl, rfl⟩ := hrun
    obtain ⟨e, view, he, hview, hend⟩ := h.end_ phase s.view hinv
    refine ⟨{ s with view := view, ends := s.ends ++ [e] }, ?_, phase, hview, hlive, hits, ?_, ?_⟩
    · rw [client, he]
      rfl
    · intro e' he'
      rcases List.mem_append.mp he' with hold | hnew
      · exact hends e' hold
      · rwa [List.mem_singleton.mp hnew]
    · rw [List.length_append, hcount]
      rfl
  | move i m =>
    simp only [positions, exec_bind_eq_ok, Except.ok.injEq, Prod.mk.injEq, Prod.exists] at hrun
    obtain ⟨p, hp, q, a, hmove, rfl, rfl⟩ := hrun
    obtain rfl := hlive (ne_nil_of_deref hp)
    obtain ⟨c, hc, hat⟩ := at_of_deref hits hp
    rw [← hcount] at hmove
    obtain ⟨⟨c', r⟩, view, hrun, hview, hat', rfl⟩ :=
      moveIter_gives h hfuel hends hat hmove s.view hinv
    refine ⟨{ s with view := view, its := s.its.set i c' }, ?_, .live, hview, fun _ => rfl,
      forall₂_set hits i hat', hends, hcount⟩
    rw [client, hc, exec_bind_ok, hrun]
    rfl
  | ask a =>
    simp only [positions, exec_bind_eq_ok, Except.ok.injEq, Prod.mk.injEq] at hrun
    obtain ⟨r, hask, rfl, rfl⟩ := hrun
    rw [← hcount] at hask
    obtain ⟨r', view, hrun, hview, rfl⟩ :=
      askIter_gives h hfuel hits hends hask hlive s.view hinv
    refine ⟨{ s with view := view }, ?_, phase, hview, hlive, hits, hends, hcount⟩
    rw [client, hrun]
    rfl

/-- A range of a list answers every program on it as the list does. -/
theorem client_refines (h : Presents R xs Inv At AtEnd) (hfuel : xs.length < fuel)
    {ops : List Request} {t : Positions} {rs : List (Answer β)}
    (hrun : Responder.run (positions R.caps xs put) ops ⟨[], 0⟩ = .ok (t, rs)) :
    ∃ s, Responder.run (client fuel put) ops (⟨R.fresh, [], []⟩ : Client R) = .ok (s, rs) := by
  have hstart : Follows Inv At AtEnd .idle (⟨R.fresh, [], []⟩ : Client R) ⟨[], 0⟩ :=
    ⟨h.fresh, fun hne => absurd rfl hne, .nil, fun _ he => absurd he List.not_mem_nil, rfl⟩
  obtain ⟨s, hs, _⟩ := Responder.run_refines (m := client fuel put)
    (R := fun s t => ∃ phase, Follows Inv At AtEnd phase s t)
    (fun op s t hrel t' r hstep => by
      obtain ⟨phase, hrel⟩ := hrel
      exact client_step h hfuel op hrel hstep)
    ⟨.idle, hstart⟩ hrun
  exact ⟨s, hs⟩

end EARanges.Adaptor
