import EARanges.Adaptor.Operations

/-!
# `view_interface`

view/interface.hpp, with the functions of range/operations.hpp that do the same from outside:
what every view gets from its `begin` and `end`. Some read past the end of an empty view; the
two functions called `at` throw instead.
-/
namespace EARanges.Adaptor
open EARanges.Support

variable {β : Type} (R : RangeModel β)

/-- `std::out_of_range`. -/
structure OutOfRange where
  what : String
  deriving DecidableEq, Repr

/-- `view_interface::empty` of a forward range. -/
def empty : Effect R.State Bool := do
  let first ← R.begin
  let last ← R.end_
  R.reached first last

/-- `operator bool`. -/
def nonempty : Effect R.State Bool := do
  let b ← empty R
  pure !b

/-- `end() - begin()`: the `size` of a view whose sentinels can be subtracted, unless it has
one of its own. -/
def sizeByEnds {σ ι ε : Type} (begin : Effect σ ι) (end_ : Effect σ ε)
    (distanceToEnd : ι → ε → Effect σ Int) : Effect σ Nat := do
  let last ← end_
  let first ← begin
  let n ← distanceToEnd first last
  pure n.toNat

def front : Effect R.State β := do
  let it ← R.begin
  R.read it

def back : Effect R.State β := do
  let it ← R.endIter
  let it ← R.prev it
  R.read it

/-- `it[n]`. -/
def subscript (it : R.Iter) (n : Int) : Effect R.State β := do
  let it ← R.advance n it
  R.read it

/-- `rng[n]`. -/
def index (n : Int) : Effect R.State β := do
  let it ← R.begin
  subscript R it n

/-- `if(n < 0 || n >= length) throw std::out_of_range(what); return begin()[n];`. -/
def checkedAt (what : String) (length : Effect R.State Int) (n : Int) :
    Effect R.State (Except OutOfRange β) := do
  if n < 0 then pure (.error ⟨what⟩)
  else
    let d ← length
    if d ≤ n then pure (.error ⟨what⟩)
    else
      let x ← index R n
      pure (.ok x)

/-- `view_interface::at`. -/
def at_ : Int → Effect R.State (Except OutOfRange β) :=
  checkedAt R "view_interface::at" do
    let size ← R.size
    pure (size : Int)

/-- `ranges::at`. -/
def rangesAt (fuel : Nat) : Int → Effect R.State (Except OutOfRange β) :=
  checkedAt R "ranges::at" (distance R fuel)

/-- `ranges::index`. -/
def rangesIndex (fuel : Nat) (n : Int) : Effect R.State β := do
  Effect.require (0 ≤ n)
  if R.caps.sized then
    let d ← distance R fuel
    Effect.require (n < d)
  index R n

/-- `for(;;) { sout << *it; if(++it == e) break; sout << ','; }`. -/
def printLoop (put : β → String) (last : R.Sent) : Nat → String → R.Iter →
    Effect R.State String
  | 0, _, _ => .ofExec (.error .fuel)
  | fuel + 1, sout, it => do
    let x ← R.read it
    let sout := sout ++ put x
    let it ← R.next it
    if ← R.reached it last then pure sout
    else printLoop put last fuel (sout ++ ",") it

/-- `print_rng_`: what is written to the stream. -/
def printRng (put : β → String) (fuel : Nat) : Effect R.State String := do
  let it ← R.begin
  let last ← R.end_
  if ← R.reached it last then pure ("[" ++ "]")
  else
    let sout ← printLoop R put last fuel "[" it
    pure (sout ++ "]")

variable {R} {xs : List β} {Inv : Phase → R.State → Prop} {At : Nat → R.Iter → Prop}
  {AtEnd : R.Sent → Prop}

theorem empty_gives (h : Presents R xs Inv At AtEnd) :
    Yields (Inv .idle) (empty R) (Inv .live) fun b => b = xs.isEmpty := by
  apply h.begin.bind
  intro c hc
  apply (h.end_ .live).bind
  intro e he
  apply (h.reached hc he).mono
  rintro b rfl
  cases xs with
  | nil => rfl
  | cons x xs => rfl

theorem nonempty_gives (h : Presents R xs Inv At AtEnd) :
    Yields (Inv .idle) (nonempty R) (Inv .live) fun b => b = !xs.isEmpty := by
  apply (empty_gives h).bind
  rintro b rfl
  exact Gives.pure rfl

theorem sizeByEnds_yields {σ ι ε : Type} {Idle Live : σ → Prop} {First : ι → Prop}
    {Last : ε → Prop} {begin : Effect σ ι} {end_ : Effect σ ε}
    {distanceToEnd : ι → ε → Effect σ Int} {n : Nat} (hbegin : Yields Idle begin Live First)
    (hend : Gives Idle end_ Last)
    (hdistance : ∀ c e, First c → Last e → Gives Live (distanceToEnd c e) (· = (n : Int))) :
    Yields Idle (sizeByEnds begin end_ distanceToEnd) Live (· = n) := by
  apply Yields.bind hend
  intro e he
  apply hbegin.bind
  intro c hc
  apply (hdistance c e hc he).bind
  rintro m rfl
  exact Gives.pure (Int.toNat_natCast n)

theorem front_gives (h : Presents R xs Inv At AtEnd) {x : β} (hx : xs[0]? = some x) :
    Yields (Inv .idle) (front R) (Inv .live) (· = x) := by
  apply h.begin.bind
  intro c hc
  exact h.read hc hx

theorem back_gives (h : Presents R xs Inv At AtEnd) (hcommon : R.caps.common = true)
    (hbidir : R.caps.bidirectional = true) {x : β} (hx : xs.getLast? = some x) :
    Yields (Inv .idle) (back R) (Inv .live) (· = x) := by
  rw [List.getLast?_eq_getElem?] at hx
  have hpos := (List.getElem?_eq_some_iff.mp hx).1
  apply (h.endIter_yields hcommon hbidir).bind
  intro c hc
  have hlast : At (xs.length - 1 + 1) c := by rwa [Nat.sub_add_cancel (by omega)]
  apply (h.prev hbidir hlast).bind
  intro c' hc'
  exact h.read hc' hx

theorem subscript_gives (h : Presents R xs Inv At AtEnd) (hrandom : R.caps.randomAccess = true)
    {i j : Nat} {n : Int} {it : R.Iter} (hit : At i it) (hn : (i : Int) + n = j) {x : β}
    (hx : xs[j]? = some x) : Gives (Inv .live) (subscript R it n) (· = x) := by
  have hj := (List.getElem?_eq_some_iff.mp hx).1
  apply (h.advance hrandom hit hn (Nat.le_of_lt hj)).bind
  intro c hc
  exact h.read hc hx

theorem index_gives (h : Presents R xs Inv At AtEnd) (hrandom : R.caps.randomAccess = true)
    {n : Int} (hn : 0 ≤ n) {x : β} (hx : xs[n.toNat]? = some x) :
    Yields (Inv .idle) (index R n) (Inv .live) (· = x) := by
  apply h.begin.bind
  intro c hc
  exact subscript_gives h hrandom hc (by omega) hx

/-- The element at `n`, or the exception. -/
def atOrThrow (what : String) (xs : List β) (n : Int) : Except OutOfRange β :=
  if n < 0 then .error ⟨what⟩
  else
    match xs[n.toNat]? with
    | some x => .ok x
    | none => .error ⟨what⟩

theorem checkedAt_gives (h : Presents R xs Inv At AtEnd) (hrandom : R.caps.randomAccess = true)
    {length : Effect R.State Int} {phase : Phase}
    (hlength : Gives (Inv phase) length fun d => d = xs.length) (what : String) (n : Int) :
    Gives (Inv phase) (checkedAt R what length n) fun r => r = atOrThrow what xs n := by
  unfold checkedAt atOrThrow
  split
  next => exact .pure rfl
  next hneg =>
    apply hlength.bind
    rintro d rfl
    split
    next hle =>
      rw [List.getElem?_eq_none (by omega)]
      exact .pure rfl
    next hlt =>
      have hx := List.getElem?_eq_getElem (show n.toNat < xs.length by omega)
      apply (h.gives_of_yields (index_gives h hrandom (by omega) hx) phase).bind
      rintro x rfl
      rw [hx]
      exact .pure rfl

theorem at_gives (h : Presents R xs Inv At AtEnd) (hrandom : R.caps.randomAccess = true)
    (hsized : R.caps.sized = true) (phase : Phase) (n : Int) :
    Gives (Inv phase) (at_ R n) fun r => r = atOrThrow "view_interface::at" xs n := by
  apply checkedAt_gives h hrandom
  apply (h.size hsized phase).bind
  rintro size rfl
  exact .pure rfl

theorem rangesAt_gives (h : Presents R xs Inv At AtEnd) (hrandom : R.caps.randomAccess = true)
    {fuel : Nat} (hfuel : xs.length < fuel) (phase : Phase) (n : Int) :
    Gives (Inv phase) (rangesAt R fuel n) fun r => r = atOrThrow "ranges::at" xs n :=
  checkedAt_gives h hrandom (distance_gives h hfuel phase) _ n

theorem rangesIndex_gives (h : Presents R xs Inv At AtEnd)
    (hrandom : R.caps.randomAccess = true) {fuel : Nat} (hfuel : xs.length < fuel)
    (phase : Phase) {n : Int} (hn : 0 ≤ n) {x : β} (hx : xs[n.toNat]? = some x) :
    Gives (Inv phase) (rangesIndex R fuel n) (· = x) := by
  have hlt := (List.getElem?_eq_some_iff.mp hx).1
  have hindex := h.gives_of_yields (index_gives h hrandom hn hx) phase
  apply (Gives.require hn).bind
  intro _ _
  split
  · apply (distance_gives h hfuel phase).bind
    rintro d rfl
    apply (Gives.require (by omega)).bind
    intro _ _
    exact hindex
  · exact hindex

/-! ## Output -/

/-- `[a,b,c]`. -/
def listing (put : β → String) (xs : List β) : String :=
  "[" ++ ",".intercalate (xs.map put) ++ "]"

theorem printLoop_gives (h : Presents R xs Inv At AtEnd) (put : β → String) {last : R.Sent}
    (hlast : AtEnd last) {fuel i : Nat} {sout : String} {it : R.Iter} (hit : At i it)
    (hi : i < xs.length) (hfuel : xs.length - i < fuel) :
    Gives (Inv .live) (printLoop R put last fuel sout it) fun s =>
      s = sout ++ ",".intercalate ((xs.drop i).map put) := by
  induction fuel generalizing i sout it with
  | zero => omega
  | succ fuel ih =>
    rw [List.drop_eq_getElem_cons hi]
    apply (h.read hit (List.getElem?_eq_getElem hi)).bind
    rintro x rfl
    apply (h.next hit hi).bind
    intro c hc
    apply (h.reached hc hlast).bind
    rintro b rfl
    by_cases hend : i + 1 = xs.length
    · rw [decide_eq_true hend, if_pos rfl, List.drop_of_length_le (Nat.le_of_eq hend.symm)]
      exact .pure (by simp)
    · rw [decide_eq_false hend, if_neg Bool.false_ne_true]
      apply (ih hc (by omega) (by omega)).mono
      rintro s rfl
      rw [List.drop_eq_getElem_cons (show i + 1 < xs.length by omega)]
      simp only [List.map_cons, String.intercalate_cons_cons, String.append_assoc]

theorem printRng_gives (h : Presents R xs Inv At AtEnd) (put : β → String) {fuel : Nat}
    (hfuel : xs.length < fuel) :
    Yields (Inv .idle) (printRng R put fuel) (Inv .live) fun s => s = listing put xs := by
  apply h.begin.bind
  intro c hc
  apply (h.end_ .live).bind
  intro e he
  apply Yields.bind (h.reached hc he)
  rintro b rfl
  by_cases hnil : 0 = xs.length
  · rw [decide_eq_true hnil, if_pos rfl, List.length_eq_zero_iff.mp hnil.symm]
    exact Gives.pure rfl
  · rw [decide_eq_false hnil, if_neg Bool.false_ne_true]
    apply Yields.bind (printLoop_gives h put he hc (by omega) (by omega))
    rintro s rfl
    exact Gives.pure rfl

end EARanges.Adaptor
