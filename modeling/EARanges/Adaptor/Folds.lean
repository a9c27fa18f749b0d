import EARanges.Adaptor.Interface

/-!
# Folds over any range

algorithm/fold_left.hpp, algorithm/fold_right.hpp, algorithm/count_if.hpp and
numeric/accumulate.hpp.
-/
namespace EARanges.Adaptor
open EARanges.Support

variable {α β γ : Type}

section
variable (R : RangeModel α) (fuel : Nat)

/-- `for(; first != last; ++first) accum = op(accum, *first)`. -/
def foldLoop (op : γ → α → γ) (last : R.Sent) : Nat → R.Iter → γ → Effect R.State γ
  | 0, _, _ => .ofExec (.error .fuel)
  | fuel + 1, first, accum => do
    if ← R.reached first last then pure accum
    else
      let x ← R.read first
      let first ← R.next first
      foldLoop op last fuel first (op accum x)

/-- A call `f(begin(rng), end(rng))`. -/
def withEnds (f : R.Iter → R.Sent → Effect R.State γ) : Effect R.State γ := do
  let first ← R.begin
  let last ← R.end_
  f first last

def accumulate (init : γ) (op : γ → β → γ) (proj : α → β) : Effect R.State γ :=
  withEnds R fun first last => foldLoop R (fun accum x => op accum (proj x)) last fuel first init

def countIf (pred : β → Bool) (proj : α → β) : Effect R.State Int :=
  withEnds R fun first last =>
    foldLoop R (fun n x => if pred (proj x) then n + 1 else n) last fuel first 0

/-- `fold_left`, which has its first step apart. -/
def foldLeftEnds (op : γ → α → γ) (init : γ) (first : R.Iter) (last : R.Sent) :
    Effect R.State γ := do
  if ← R.reached first last then pure init
  else
    let x ← R.read first
    let first ← R.next first
    foldLoop R op last fuel first (op init x)

def foldLeft (init : γ) (op : γ → α → γ) : Effect R.State γ :=
  withEnds R (foldLeftEnds R fuel op init)

def foldLeftFirst (op : α → α → α) : Effect R.State (Option α) :=
  withEnds R fun first last => do
    if ← R.reached first last then pure none
    else
      let init ← R.read first
      let first ← R.next first
      let r ← foldLeftEnds R fuel op init first last
      pure (some r)

/-- `while(first != tail) accum = op(*--tail, accum)`. -/
def foldBackLoop (op : α → γ → γ) (first : R.Iter) : Nat → R.Iter → γ → Effect R.State γ
  | 0, _, _ => .ofExec (.error .fuel)
  | fuel + 1, tail, accum => do
    if ← R.equal first tail then pure accum
    else
      let tail ← R.prev tail
      let x ← R.read tail
      foldBackLoop op first fuel tail (op x accum)

/-- `accum = op(*--tail, init)` and the loop. -/
def foldBack (op : α → γ → γ) (init : γ) (first tail : R.Iter) : Effect R.State γ := do
  let tail ← R.prev tail
  let x ← R.read tail
  foldBackLoop R op first fuel tail (op x init)

def foldRight (init : γ) (op : α → γ → γ) : Effect R.State γ :=
  withEnds R fun first last => do
    if ← R.reached first last then pure init
    else
      let tail ← advanceToEnd R fuel last first
      foldBack R fuel op init first tail

/-- The call of `fold_right` is one with two iterators. -/
def foldRightLast (op : α → α → α) : Effect R.State (Option α) :=
  withEnds R fun first last => do
    if ← R.reached first last then pure none
    else
      let tail ← advanceToEnd R fuel last first
      let tail ← R.prev tail
      let init ← R.read tail
      if ← R.equal first tail then pure (some init)
      else
        let r ← foldBack R fuel op init first tail
        pure (some r)

end

section
variable {R : RangeModel α} {xs : List α} {Inv : Phase → R.State → Prop}
  {At : Nat → R.Iter → Prop} {AtEnd : R.Sent → Prop} {fuel : Nat}

theorem withEnds_yields (h : Presents R xs Inv At AtEnd) {f : R.Iter → R.Sent → Effect R.State γ}
    {Q : γ → Prop} (hf : ∀ c e, At 0 c → AtEnd e → Gives (Inv .live) (f c e) Q) :
    Yields (Inv .idle) (withEnds R f) (Inv .live) Q := by
  apply h.begin.bind
  intro c hc
  apply (h.end_ .live).bind
  intro e he
  exact hf c e hc he

theorem foldLoop_gives (h : Presents R xs Inv At AtEnd) (op : γ → α → γ) {last : R.Sent}
    (hlast : AtEnd last) {fuel i : Nat} {first : R.Iter} (hfirst : At i first) (accum : γ)
    (hfuel : xs.length - i < fuel) :
    Gives (Inv .live) (foldLoop R op last fuel first accum) (· = (xs.drop i).foldl op accum) := by
  induction fuel generalizing i first accum with
  | zero => omega
  | succ fuel ih =>
    apply h.branch hfirst hlast
    · intro hend
      rw [List.drop_of_length_le (Nat.le_of_eq hend.symm)]
      exact .pure rfl
    · intro hlt
      rw [List.drop_eq_getElem_cons hlt]
      apply (h.read hfirst (List.getElem?_eq_getElem hlt)).bind
      rintro x rfl
      apply (h.next hfirst hlt).bind
      intro c hc
      exact ih hc _ (by omega)

/-- The loop of `count_if` counts. -/
theorem foldl_count (pred : α → Bool) (xs : List α) (n : Int) :
    xs.foldl (fun n x => if pred x then n + 1 else n) n = n + xs.countP pred := by
  induction xs generalizing n with
  | nil => exact (Int.add_zero n).symm
  | cons x xs ih =>
    rw [List.foldl_cons, ih, List.countP_cons]
    split <;> omega

theorem foldLeftEnds_gives (h : Presents R xs Inv At AtEnd) (op : γ → α → γ) {last : R.Sent}
    (hlast : AtEnd last) (hfuel : xs.length < fuel) {i : Nat} {first : R.Iter}
    (hfirst : At i first) (init : γ) :
    Gives (Inv .live) (foldLeftEnds R fuel op init first last)
      (· = (xs.drop i).foldl op init) := by
  apply h.branch hfirst hlast
  · intro hend
    rw [List.drop_of_length_le (Nat.le_of_eq hend.symm)]
    exact .pure rfl
  · intro hlt
    rw [List.drop_eq_getElem_cons hlt]
    apply (h.read hfirst (List.getElem?_eq_getElem hlt)).bind
    rintro x rfl
    apply (h.next hfirst hlt).bind
    intro c hc
    exact foldLoop_gives h op hlast hc _ (by omega)

theorem foldBackLoop_gives (h : Presents R xs Inv At AtEnd) (hbidir : R.caps.bidirectional = true)
    (op : α → γ → γ) {first : R.Iter} (hfirst : At 0 first) {fuel i : Nat} {tail : R.Iter}
    (htail : At i tail) (accum : γ) (hfuel : i < fuel) :
    Gives (Inv .live) (foldBackLoop R op first fuel tail accum)
      (· = (xs.take i).foldr op accum) := by
  induction fuel generalizing i tail accum with
  | zero => omega
  | succ fuel ih =>
    apply (h.equal hfirst htail).bind
    rintro b rfl
    cases i with
    | zero => exact .pure rfl
    | succ i =>
      have hlt : i < xs.length := h.le htail
      rw [List.take_succ_eq_append_getElem hlt, List.foldr_append]
      apply (h.prev hbidir htail).bind
      intro c hc
      apply (h.read hc (List.getElem?_eq_getElem hlt)).bind
      rintro x rfl
      exact ih hc _ (Nat.lt_of_succ_lt_succ hfuel)

theorem foldBack_gives (h : Presents R xs Inv At AtEnd) (hbidir : R.caps.bidirectional = true)
    (op : α → γ → γ) (hfuel : xs.length < fuel) {first : R.Iter} (hfirst : At 0 first) {i : Nat}
    {tail : R.Iter} (htail : At (i + 1) tail) (init : γ) :
    Gives (Inv .live) (foldBack R fuel op init first tail)
      (· = (xs.take (i + 1)).foldr op init) := by
  have hlt : i < xs.length := h.le htail
  rw [List.take_succ_eq_append_getElem hlt, List.foldr_append]
  apply (h.prev hbidir htail).bind
  intro c hc
  apply (h.read hc (List.getElem?_eq_getElem hlt)).bind
  rintro x rfl
  exact foldBackLoop_gives h hbidir op hfirst hc _ (by omega)

theorem foldRight_yields (h : Presents R xs Inv At AtEnd) (hbidir : R.caps.bidirectional = true)
    (hfuel : xs.length < fuel) (init : γ) (op : α → γ → γ) :
    Yields (Inv .idle) (foldRight R fuel init op) (Inv .live) (· = xs.foldr op init) := by
  apply withEnds_yields h
  intro c e hc he
  apply h.branch hc he
  · intro hempty
    rw [List.eq_nil_of_length_eq_zero hempty.symm]
    exact .pure rfl
  · intro hpos
    apply (advanceToEnd_gives h hc he hfuel).bind
    intro tail htail
    rw [← Nat.sub_add_cancel hpos] at htail
    have hrun := foldBack_gives h hbidir op hfuel hc htail init
    rwa [Nat.sub_add_cancel hpos, List.take_length] at hrun

theorem foldLeftFirst_yields (h : Presents R xs Inv At AtEnd) (hfuel : xs.length < fuel)
    (op : α → α → α) :
    Yields (Inv .idle) (foldLeftFirst R fuel op) (Inv .live)
      (· = xs.head?.map fun x => xs.tail.foldl op x) := by
  apply withEnds_yields h
  intro c e hc he
  apply h.branch hc he
  · intro hempty
    rw [List.eq_nil_of_length_eq_zero hempty.symm]
    exact .pure rfl
  · intro hpos
    apply (h.read hc (List.getElem?_eq_getElem hpos)).bind
    rintro x rfl
    apply (h.next hc hpos).bind
    intro c' hc'
    apply (foldLeftEnds_gives h op he hfuel hc' _).bind
    rintro r rfl
    rw [List.head?_eq_getElem?, List.getElem?_eq_getElem hpos, ← List.drop_one]
    exact .pure rfl

theorem foldRightLast_yields (h : Presents R xs Inv At AtEnd)
    (hbidir : R.caps.bidirectional = true) (hfuel : xs.length < fuel) (op : α → α → α) :
    Yields (Inv .idle) (foldRightLast R fuel op) (Inv .live)
      (· = xs.getLast?.map fun x => xs.dropLast.foldr op x) := by
  apply withEnds_yields h
  intro c e hc he
  apply h.branch hc he
  · intro hempty
    rw [List.eq_nil_of_length_eq_zero hempty.symm]
    exact .pure rfl
  · intro hpos
    obtain ⟨n, hn⟩ : ∃ n, xs.length = n + 1 := ⟨xs.length - 1, by omega⟩
    apply (advanceToEnd_gives h hc he hfuel).bind
    intro tail htail
    rw [hn] at htail
    apply (h.prev hbidir htail).bind
    intro tail htail
    obtain ⟨x, hx⟩ : ∃ x, xs[n]? = some x := ⟨_, List.getElem?_eq_getElem (by omega)⟩
    rw [List.getLast?_eq_getElem?, List.dropLast_eq_take, hn, Nat.add_sub_cancel, hx]
    apply (h.read htail hx).bind
    rintro init rfl
    apply (h.equal hc htail).bind
    rintro b rfl
    cases n with
    | zero => exact .pure rfl
    | succ n =>
      apply (foldBack_gives h hbidir op hfuel hc htail _).bind
      rintro r rfl
      exact .pure rfl

end

end EARanges.Adaptor
