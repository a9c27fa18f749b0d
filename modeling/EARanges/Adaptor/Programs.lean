import EARanges.Adaptor.Comparisons
import EARanges.Adaptor.Pipeline
import EARanges.Adaptor.Searches

/-!
# Programs that call algorithms on a view

A program calls one algorithm after the other on one view, and may choose each call by what the
calls before it returned. The view is one object: what a call leaves in its caches, the next call
finds there.
-/
namespace EARanges.Adaptor
open EARanges.Support EARanges.View

/-- A call with its arguments. Positions are returned as distances from `begin`. -/
inductive Call (α : Type) : Type → Type 1 where
  | forEach : Call α (List α)
  | distance : Call α Int
  | accumulate {β γ : Type} (init : γ) (op : γ → β → γ) (proj : α → β) : Call α γ
  | countIf {β : Type} (pred : β → Bool) (proj : α → β) : Call α Int
  | foldLeft {γ : Type} (init : γ) (op : γ → α → γ) : Call α γ
  | foldLeftFirst (op : α → α → α) : Call α (Option α)
  | foldRight {γ : Type} (init : γ) (op : α → γ → γ) : Call α γ
  | foldRightLast (op : α → α → α) : Call α (Option α)
  | allOf {β : Type} (pred : β → Bool) (proj : α → β) : Call α Bool
  | anyOf {β : Type} (pred : β → Bool) (proj : α → β) : Call α Bool
  | noneOf {β : Type} (pred : β → Bool) (proj : α → β) : Call α Bool
  | isPartitioned {β : Type} (pred : β → Bool) (proj : α → β) : Call α Bool
  | findIf {β : Type} (pred : β → Bool) (proj : α → β) : Call α Int
  | adjacentFind {β : Type} (pred : β → β → Bool) (proj : α → β) : Call α Int
  | isSortedUntil {β : Type} (pred : β → β → Bool) (proj : α → β) : Call α Int
  | isSorted {β : Type} (pred : β → β → Bool) (proj : α → β) : Call α Bool

namespace Call

variable {α γ : Type}

/-- The call on a view. -/
def run (R : RangeModel α) (fuel : Nat) : {γ : Type} → Call α γ → Effect R.State γ
  | _, .forEach => R.elements fuel
  | _, .distance => Adaptor.distance R fuel
  | _, .accumulate init op proj => Adaptor.accumulate R fuel init op proj
  | _, .countIf pred proj => Adaptor.countIf R fuel pred proj
  | _, .foldLeft init op => Adaptor.foldLeft R fuel init op
  | _, .foldLeftFirst op => Adaptor.foldLeftFirst R fuel op
  | _, .foldRight init op => Adaptor.foldRight R fuel init op
  | _, .foldRightLast op => Adaptor.foldRightLast R fuel op
  | _, .allOf pred proj => Adaptor.allOf R fuel pred proj
  | _, .anyOf pred proj => Adaptor.anyOf R fuel pred proj
  | _, .noneOf pred proj => Adaptor.noneOf R fuel pred proj
  | _, .isPartitioned pred proj => Adaptor.isPartitioned R fuel pred proj
  | _, .findIf pred proj => foundAt R fuel (Adaptor.findIf R fuel pred proj)
  | _, .adjacentFind pred proj => foundAt R fuel (Adaptor.adjacentFind R fuel pred proj)
  | _, .isSortedUntil pred proj => foundAt R fuel (Adaptor.isSortedUntil R fuel pred proj)
  | _, .isSorted pred proj => Adaptor.isSorted R fuel pred proj

/-- What the call is for. -/
def answer (xs : List α) : {γ : Type} → Call α γ → γ
  | _, .forEach => xs
  | _, .distance => xs.length
  | _, .accumulate init op proj => xs.foldl (fun accum x => op accum (proj x)) init
  | _, .countIf pred proj => (xs.countP fun x => pred (proj x) : Nat)
  | _, .foldLeft init op => xs.foldl op init
  | _, .foldLeftFirst op => xs.head?.map fun x => xs.tail.foldl op x
  | _, .foldRight init op => xs.foldr op init
  | _, .foldRightLast op => xs.getLast?.map fun x => xs.dropLast.foldr op x
  | _, .allOf pred proj => xs.all fun x => pred (proj x)
  | _, .anyOf pred proj => xs.any fun x => pred (proj x)
  | _, .noneOf pred proj => !xs.any fun x => pred (proj x)
  | _, .isPartitioned pred proj =>
    (xs.dropWhile fun x => pred (proj x)).all fun x => !pred (proj x)
  | _, .findIf pred proj => (xs.takeWhile fun x => !pred (proj x)).length
  | _, .adjacentFind pred proj => adjacentAt (fun x y => pred (proj x) (proj y)) xs
  | _, .isSortedUntil pred proj => sortedUntil (projected pred proj) xs
  | _, .isSorted pred proj => inOrder (projected pred proj) xs

/-- The concepts that the algorithm requires. -/
def Allowed (caps : Capabilities) : {γ : Type} → Call α γ → Prop
  | _, .foldRight _ _ => caps.bidirectional = true
  | _, .foldRightLast _ => caps.bidirectional = true
  | _, _ => True

variable {R : RangeModel α} {xs : List α} {Inv : Phase → R.State → Prop}
  {At : Nat → R.Iter → Prop} {AtEnd : R.Sent → Prop} {fuel : Nat}

/-- Each algorithm, called on a view in whatever state, answers for the list. -/
theorem run_gives (h : Presents R xs Inv At AtEnd) (hfuel : xs.length < fuel) (c : Call α γ)
    (hallowed : c.Allowed R.caps) :
    Gives (Inv .idle) (c.run R fuel) (· = c.answer xs) := by
  have hidle : ∀ {δ : Type} {m : Effect R.State δ} {r : δ},
      Yields (Inv .idle) m (Inv .live) (· = r) → Gives (Inv .idle) m (· = r) :=
    fun hm => hm.mono h.idle fun _ hr => hr
  have hrest : xs.length - 0 < fuel := hfuel
  cases c with
  | forEach => exact hidle (h.elements hfuel)
  | distance => exact distance_gives h hfuel .idle
  | accumulate init op proj =>
    exact hidle (withEnds_yields h fun c e hc he => foldLoop_gives h _ he hc init hrest)
  | countIf pred proj =>
    apply hidle
    apply withEnds_yields h
    intro c e hc he
    apply (foldLoop_gives h _ he hc (0 : Int) hrest).mono
    rintro n rfl
    rw [List.drop_zero, foldl_count, Int.zero_add]
    rfl
  | foldLeft init op =>
    exact hidle (withEnds_yields h fun c e hc he => foldLeftEnds_gives h op he hfuel hc init)
  | foldLeftFirst op => exact hidle (foldLeftFirst_yields h hfuel op)
  | foldRight init op => exact hidle (foldRight_yields h hallowed hfuel init op)
  | foldRightLast op => exact hidle (foldRightLast_yields h hallowed hfuel op)
  | allOf pred proj =>
    have hall : (xs.all fun x => pred (proj x)) = !xs.any fun x => !pred (proj x) :=
      List.all_eq_not_any_not
    rw [answer, hall]
    exact hidle (anyLoop_yields h hfuel (fun x => !pred (proj x)) (!·))
  | anyOf pred proj =>
    exact hidle (withEnds_yields h fun c e hc he => anyLoop_gives h _ he hc hrest)
  | noneOf pred proj => exact hidle (anyLoop_yields h hfuel (fun x => pred (proj x)) (!·))
  | isPartitioned pred proj => exact hidle (isPartitioned_yields h hfuel pred proj)
  | findIf pred proj =>
    exact hidle (foundAt_yields h hfuel fun c e hc he => findIf_gives h hfuel pred proj hc he)
  | adjacentFind pred proj =>
    exact hidle (foundAt_yields h hfuel fun c e hc he => adjacentFind_gives h hfuel pred proj hc he)
  | isSortedUntil pred proj =>
    exact hidle (foundAt_yields h hfuel fun c e hc he =>
      isSortedUntil_gives h hfuel pred proj hc he)
  | isSorted pred proj => exact hidle (isSorted_yields h hfuel pred proj)

end Call

inductive Program (α γ : Type) : Type 1 where
  | done (r : γ)
  | call {δ : Type} (c : Call α δ) (rest : δ → Program α γ)

namespace Program

variable {α γ : Type}

def run (R : RangeModel α) (fuel : Nat) : Program α γ → Effect R.State γ
  | done r => pure r
  | call c rest => do
    let r ← c.run R fuel
    (rest r).run R fuel

def answer (xs : List α) : Program α γ → γ
  | done r => r
  | call c rest => (rest (c.answer xs)).answer xs

/-- Each call of the program, whether it is reached or not, has what it requires. -/
def Allowed (caps : Capabilities) : Program α γ → Prop
  | done _ => True
  | call c rest => c.Allowed caps ∧ ∀ r, (rest r).Allowed caps

theorem run_gives {R : RangeModel α} {xs : List α} {Inv : Phase → R.State → Prop}
    {At : Nat → R.Iter → Prop} {AtEnd : R.Sent → Prop} {fuel : Nat}
    (h : Presents R xs Inv At AtEnd) (hfuel : xs.length < fuel) (prog : Program α γ)
    (hallowed : prog.Allowed R.caps) :
    Gives (Inv .idle) (prog.run R fuel) (· = prog.answer xs) := by
  induction prog with
  | done r => exact .pure rfl
  | call c rest ih =>
    apply (c.run_gives h hfuel hallowed.1).bind
    rintro r rfl
    exact ih _ (hallowed.2 _)

end Program

namespace Pipeline

/-- Counts what is less than the last sum, then adds that to a sum from the right. -/
def sumTwice : Program Int Int :=
  .call (.accumulate 0 (· + ·) id) fun sum =>
    .call (.countIf (fun x => x < sum) id) fun n =>
      .call (.foldRight n (· + ·)) .done

/-- The calls return the same. -/
def Agree {α β γ : Type} (fuel : Nat) (p : Pipeline α) (c : Call α γ) (q : Pipeline β)
    (d : Call β γ) : Prop :=
  ∃ r, Computes (p.compile fuel) (c.run (p.compile fuel) fuel) r ∧
    Computes (q.compile fuel) (d.run (q.compile fuel) fuel) r

theorem Agree.of_answers {α β γ : Type} {fuel : Nat} {p : Pipeline α} {c : Call α γ}
    {q : Pipeline β} {d : Call β γ} (hp : p.WellFormed fuel) (hq : q.WellFormed fuel)
    (hpfuel : p.longest < fuel) (hqfuel : q.longest < fuel)
    (hc : c.Allowed (p.compile fuel).caps) (hd : d.Allowed (q.compile fuel).caps)
    (hanswer : c.answer p.denote = d.answer q.denote) : Agree fuel p c q d := by
  have hanswers : ∀ {δ : Type} (r : Pipeline δ) (e : Call δ γ), r.WellFormed fuel →
      r.longest < fuel → e.Allowed (r.compile fuel).caps →
      Computes (r.compile fuel) (e.run (r.compile fuel) fuel) (e.answer r.denote) := by
    intro δ r e hwell hfuel hallowed
    obtain ⟨Inv, At, AtEnd, h⟩ := r.lawful fuel hwell hfuel
    exact h.computes (e.run_gives h (Nat.lt_of_le_of_lt r.length_denote hfuel) hallowed)
  refine ⟨_, hanswers p c hp hpfuel hc, ?_⟩
  rw [hanswer]
  exact hanswers q d hq hqfuel hd

/-- An algorithm with a projection or a predicate returns what the plain one returns for the view
that applies it; a fold from the right is one from the left over the reversed view. -/
theorem calls_agree_with_views {α β γ : Type} (p : Pipeline α) {fuel : Nat}
    (hwell : p.WellFormed fuel) (hfuel : p.longest < fuel) (init : γ) (op : γ → β → γ)
    (opr : α → γ → γ) (pred : β → Bool) (proj : α → β) :
    Agree fuel p (.accumulate init op proj) (p.view (.transform proj)) (.foldLeft init op) ∧
    Agree fuel p (.countIf pred proj) ((p.view (.transform proj)).view (.filter pred))
      .distance ∧
    Agree fuel p (.findIf pred proj)
      ((p.view (.transform proj)).view (.takeWhile fun y => !pred y)) .distance ∧
    Agree fuel p (.isPartitioned pred proj)
      ((p.view (.transform proj)).view (.dropWhile pred)) (.noneOf pred id) ∧
    ((p.compile fuel).caps.bidirectional = true →
      Agree fuel p (.foldRight init opr) (p.view .reverse)
        (.foldLeft init fun x y => opr y x)) := by
  refine ⟨?_, ?_, ?_, ?_, fun hbidir => ?_⟩
  · refine .of_answers hwell ⟨hwell, trivial⟩ hfuel hfuel trivial trivial ?_
    exact List.foldl_map.symm
  · refine .of_answers hwell ⟨⟨hwell, trivial⟩, trivial⟩ hfuel hfuel trivial trivial ?_
    have hcount : (p.denote.countP fun x => pred (proj x)) =
        ((p.denote.map proj).filter fun y => !!pred y).length := by
      simp only [Bool.not_not]
      rw [← List.countP_eq_length_filter, List.countP_map]
      rfl
    exact congrArg Int.ofNat hcount
  · refine .of_answers hwell ⟨⟨hwell, trivial⟩, trivial⟩ hfuel hfuel trivial trivial ?_
    have hlength : (p.denote.takeWhile fun x => !pred (proj x)).length =
        ((p.denote.map proj).takeWhile fun y => !pred y).length := by
      rw [List.takeWhile_map, List.length_map]
      rfl
    exact congrArg Int.ofNat hlength
  · refine .of_answers hwell ⟨⟨hwell, trivial⟩, trivial⟩ hfuel hfuel trivial trivial ?_
    have hany : ((p.denote.dropWhile fun x => pred (proj x)).all fun x => !pred (proj x)) =
        !((p.denote.map proj).dropWhile pred).any pred := by
      rw [List.dropWhile_map, List.any_map, List.all_eq_not_any_not]
      simp only [Bool.not_not]
      rfl
    exact hany
  · refine .of_answers hwell ⟨hwell, hbidir⟩ hfuel hfuel hbidir trivial ?_
    exact List.foldl_reverse.symm

theorem calls_agree_with_views_evenSquares :
    Agree 9 evenSquares (.accumulate (0 : Int) (· + ·) (· + 1))
      (evenSquares.view (.transform (· + 1))) (.foldLeft (0 : Int) (· + ·)) ∧
    Agree 9 evenSquares (.countIf (· > (10 : Int)) (· + 1))
      ((evenSquares.view (.transform (· + 1))).view (.filter (· > (10 : Int)))) .distance ∧
    Agree 9 evenSquares (.findIf (· > (10 : Int)) (· + 1))
      ((evenSquares.view (.transform (· + 1))).view (.takeWhile fun y => !(y > (10 : Int))))
      .distance ∧
    Agree 9 evenSquares (.isPartitioned (· > (10 : Int)) (· + 1))
      ((evenSquares.view (.transform (· + 1))).view (.dropWhile (· > (10 : Int))))
      (.noneOf (· > (10 : Int)) id) ∧
    ((evenSquares.compile 9).caps.bidirectional = true →
      Agree 9 evenSquares (.foldRight (0 : Int) (· - ·)) (evenSquares.view .reverse)
        (.foldLeft (0 : Int) fun x y => y - x)) :=
  calls_agree_with_views evenSquares evenSquares_wellFormed (by decide) (0 : Int) (· + ·) (· - ·)
    (· > (10 : Int)) (· + 1)

/-! ## Erased types -/

/-- The second pipeline is the first with an `any_view` or a `common_view` put in here and there. -/
inductive Erased : {β : Type} → Pipeline β → Pipeline β → Prop
  | refl {β : Type} (p : Pipeline β) : Erased p p
  | any {β : Type} {p q : Pipeline β} (h : Erased p q) (cat : AnyCategory) (constEnd : Bool) :
    Erased p (q.view (.any cat constEnd))
  | common {β : Type} {p q : Pipeline β} (h : Erased p q) : Erased p (q.view .common)
  | view {α β : Type} {p q : Pipeline α} (h : Erased p q) (v : ViewClosure α β) :
    Erased (p.view v) (q.view v)
  | zipWith {α β γ : Type} (fun_ : α → β → γ) {p p' : Pipeline α} {q q' : Pipeline β}
    (h : Erased p p') (h' : Erased q q') : Erased (zipWith fun_ p q) (zipWith fun_ p' q')

theorem Erased.denote_eq {β : Type} {p q : Pipeline β} (h : Erased p q) : q.denote = p.denote := by
  induction h with
  | refl p => rfl
  | any _ cat constEnd ih => exact ih
  | common _ ih => exact ih
  | view _ v ih => rw [denote, denote, ih]
  | zipWith fun_ _ _ ih ih' => rw [denote, denote, ih, ih']

theorem Erased.longest_eq {β : Type} {p q : Pipeline β} (h : Erased p q) :
    q.longest = p.longest := by
  induction h with
  | refl p => rfl
  | any _ cat constEnd ih => exact ih
  | common _ ih => exact ih
  | view _ v ih => exact ih
  | zipWith fun_ _ _ ih ih' => rw [longest, longest, ih, ih']

/-- `evenSquares` behind two `any_view`s, the inner one of a view that memoises its begin. -/
def erasedSquares : Pipeline Int :=
  .view (.view (.view (.view (.view intsBelowEight (.transform fun x => x * x))
    (.filter fun x => x % 2 == 0)) (.any .bidirectional false)) .reverse) (.any .forward true)

/-- `is_sorted` tells whether the view is sorted, `is_sorted_until` goes as far as it is, and
`adjacent_find` stops at the first two neighbours that are related. -/
theorem sortedness_answers {α β : Type} (p : Pipeline α) {fuel : Nat} (hwell : p.WellFormed fuel)
    (hfuel : p.longest < fuel) {pred : β → β → Bool} (horder : StrictWeakOrder pred)
    (rel : β → β → Bool) (proj : α → β) :
    ∃ (sorted : Bool) (last pair : Nat),
      Computes (p.compile fuel) ((Call.isSorted pred proj).run _ fuel) sorted ∧
      Computes (p.compile fuel) ((Call.isSortedUntil pred proj).run _ fuel) (last : Int) ∧
      Computes (p.compile fuel) ((Call.adjacentFind rel proj).run _ fuel) (pair : Int) ∧
      (sorted = true ↔ Sorted (projected pred proj) p.denote) ∧
      Sorted (projected pred proj) (p.denote.take last) ∧
      (last = p.denote.length ∨ ¬ Sorted (projected pred proj) (p.denote.take (last + 1))) ∧
      (∀ k < pair, ¬ DropsAt (fun x y => rel (proj x) (proj y)) p.denote k) ∧
      (pair = p.denote.length ∨ DropsAt (fun x y => rel (proj x) (proj y)) p.denote pair) := by
  obtain ⟨Inv, At, AtEnd, h⟩ := p.lawful fuel hwell hfuel
  have hlength := Nat.lt_of_le_of_lt p.length_denote hfuel
  obtain ⟨hsorted, hmore⟩ := sorted_until (horder.projected proj) p.denote
  refine ⟨_, _, _, h.computes (Call.run_gives h hlength _ trivial),
    h.computes (Call.run_gives h hlength (.isSortedUntil pred proj) trivial),
    h.computes (Call.run_gives h hlength (.adjacentFind rel proj) trivial),
    inOrder_iff (horder.projected proj) p.denote, hsorted, hmore, ?_, ?_⟩
  · exact fun k hk => not_dropsAt_of_lt_adjacentAt hk
  · exact adjacentAt_stands

theorem sortedness_answers_evenSquares :
    ∃ (sorted : Bool) (last pair : Nat),
      Computes (evenSquares.compile 9)
        ((Call.isSorted (fun x y : Int => decide (x < y)) (-·)).run _ 9) sorted ∧
      Computes (evenSquares.compile 9)
        ((Call.isSortedUntil (fun x y : Int => decide (x < y)) (-·)).run _ 9) (last : Int) ∧
      Computes (evenSquares.compile 9)
        ((Call.adjacentFind (fun x y : Int => x + 12 == y) (-·)).run _ 9) (pair : Int) ∧
      (sorted = true ↔ Sorted (projected (fun x y : Int => decide (x < y)) (-·)) [36, 16, 4, 0]) ∧
      Sorted (projected (fun x y : Int => decide (x < y)) (-·)) ([36, 16, 4, 0].take last) ∧
      (last = 4 ∨ ¬ Sorted (projected (fun x y : Int => decide (x < y)) (-·))
        ([36, 16, 4, 0].take (last + 1))) ∧
      (∀ k < pair, ¬ DropsAt (fun x y : Int => -x + 12 == -y) [36, 16, 4, 0] k) ∧
      (pair = 4 ∨ DropsAt (fun x y : Int => -x + 12 == -y) [36, 16, 4, 0] pair) :=
  sortedness_answers evenSquares evenSquares_wellFormed (by decide) (.of_linearOrder Int)
    (fun x y => x + 12 == y) (-·)

/-! ## Two views -/

section
variable {α β γ δ : Type} (p : Pipeline α) (q : Pipeline β) {fuel : Nat}

/-- `equal`, `starts_with` and `ends_with` compare what the views deliver, whether or not the
views know their sizes. -/
theorem comparisons_answer (hp : p.WellFormed fuel) (hq : q.WellFormed fuel)
    (hpfuel : p.longest < fuel) (hqfuel : q.longest < fuel) (pred : α → β → Bool) :
    ∃ same start finish,
      ComputesBoth (p.compile fuel) (q.compile fuel) (equal _ _ fuel pred) same ∧
      ComputesBoth (p.compile fuel) (q.compile fuel) (startsWith _ _ fuel pred) start ∧
      ComputesBoth (p.compile fuel) (q.compile fuel) (endsWith _ _ fuel pred) finish ∧
      (same = true ↔ List.Forall₂ (fun x y => pred x y = true) p.denote q.denote) ∧
      (start = true ↔ ∃ zs, zs <+: p.denote ∧
        List.Forall₂ (fun x y => pred x y = true) zs q.denote) ∧
      (finish = true ↔ ∃ zs, zs <:+ p.denote ∧
        List.Forall₂ (fun x y => pred x y = true) zs q.denote) := by
  obtain ⟨Inv, At, AtEnd, h⟩ := p.lawful fuel hp hpfuel
  obtain ⟨Inv', At', AtEnd', h'⟩ := q.lawful fuel hq hqfuel
  have hpfuel := Nat.lt_of_le_of_lt p.length_denote hpfuel
  have hqfuel := Nat.lt_of_le_of_lt q.length_denote hqfuel
  have hfresh : Both (Inv .idle) (Inv' .idle) ((p.compile fuel).fresh, (q.compile fuel).fresh) :=
    ⟨h.fresh, h'.fresh⟩
  obtain ⟨same, _, hequal, _, hsame⟩ := equal_yields pred h h' hpfuel hqfuel _ hfresh
  obtain ⟨start, _, hstarts, _, hstart⟩ := startsWith_yields pred h h' hpfuel _ hfresh
  obtain ⟨finish, _, hends, _, hfinish⟩ :=
    endsWith_yields pred h h' hpfuel hqfuel _ hfresh
  exact ⟨same, start, finish, ⟨_, hequal⟩, ⟨_, hstarts⟩, ⟨_, hends⟩, hsame, hstart, hfinish⟩

/-- `ints(0, 8) | filter(even)`. -/
def evens : Pipeline Int :=
  .view intsBelowEight (.filter fun x => x % 2 == 0)

theorem comparisons_answer_evens :
    ∃ same start finish,
      ComputesBoth (evens.compile 9) (evenSquares.compile 9) (equal _ _ 9 (· ≤ ·)) same ∧
      ComputesBoth (evens.compile 9) (evenSquares.compile 9) (startsWith _ _ 9 (· ≤ ·)) start ∧
      ComputesBoth (evens.compile 9) (evenSquares.compile 9) (endsWith _ _ 9 (· ≤ ·)) finish ∧
      (same = true ↔ List.Forall₂ (fun x y : Int => decide (x ≤ y) = true) [0, 2, 4, 6]
        [36, 16, 4, 0]) ∧
      (start = true ↔ ∃ zs, zs <+: [0, 2, 4, 6] ∧
        List.Forall₂ (fun x y : Int => decide (x ≤ y) = true) zs [36, 16, 4, 0]) ∧
      (finish = true ↔ ∃ zs, zs <:+ [0, 2, 4, 6] ∧
        List.Forall₂ (fun x y : Int => decide (x ≤ y) = true) zs [36, 16, 4, 0]) :=
  comparisons_answer evens evenSquares ⟨trivial, trivial⟩ evenSquares_wellFormed (by decide)
    (by decide) (· ≤ ·)

end

/-- Of two views, one is less, or the other, or `equal` finds them equivalent. -/
theorem lexicographical_trichotomy {α β κ : Type} (p : Pipeline α) (q : Pipeline β) {fuel : Nat}
    (hp : p.WellFormed fuel) (hq : q.WellFormed fuel) (hpfuel : p.longest < fuel)
    (hqfuel : q.longest < fuel) {pred : κ → κ → Bool} (horder : StrictWeakOrder pred)
    (proj0 : α → κ) (proj1 : β → κ) :
    ∃ less greater same,
      ComputesBoth (p.compile fuel) (q.compile fuel)
        (lexicographicalCompare _ _ fuel pred proj0 proj1) less ∧
      ComputesBoth (q.compile fuel) (p.compile fuel)
        (lexicographicalCompare _ _ fuel pred proj1 proj0) greater ∧
      ComputesBoth (p.compile fuel) (q.compile fuel)
        (equal _ _ fuel fun x y => sameClass pred (proj0 x) (proj1 y)) same ∧
      less = lexLt pred (p.denote.map proj0) (q.denote.map proj1) ∧
      (same = true ↔ less = false ∧ greater = false) ∧ ¬ (less = true ∧ greater = true) := by
  obtain ⟨Inv, At, AtEnd, h⟩ := p.lawful fuel hp hpfuel
  obtain ⟨Inv', At', AtEnd', h'⟩ := q.lawful fuel hq hqfuel
  have hpfuel := Nat.lt_of_le_of_lt p.length_denote hpfuel
  have hqfuel := Nat.lt_of_le_of_lt q.length_denote hqfuel
  obtain ⟨same, _, hequal, _, hsame⟩ :=
    equal_yields (fun x y => sameClass pred (proj0 x) (proj1 y)) h h' hpfuel hqfuel
      ((p.compile fuel).fresh, (q.compile fuel).fresh) ⟨h.fresh, h'.fresh⟩
  refine ⟨_, _, same,
    h.computesBoth h' (lexicographicalCompare_yields h h' hpfuel pred proj0 proj1),
    h'.computesBoth h (lexicographicalCompare_yields h' h hqfuel pred proj1 proj0),
    ⟨_, hequal⟩, rfl, ?_, ?_⟩
  · have hpair : ∀ x y, sameClass pred (proj0 x) (proj1 y) = true ↔
        Equivalent pred (proj0 x) (proj1 y) := fun x y => sameClass_iff
    have hall : Equivalent (lexLt pred) (p.denote.map proj0) (q.denote.map proj1) ↔
        List.Forall₂ (fun x y => Equivalent pred (proj0 x) (proj1 y)) p.denote q.denote := by
      rw [equivalent_lexLt_iff, List.forall₂_map_left_iff, List.forall₂_map_right_iff]
    simp only [hsame, hpair]
    exact hall.symm
  · rintro ⟨hless, hgreater⟩
    have hasymm := horder.lexLt.asymm hless
    exact Bool.false_ne_true (hasymm.symm.trans hgreater)

theorem lexicographical_trichotomy_evens :
    ∃ less greater same,
      ComputesBoth (evens.compile 9) (evenSquares.compile 9)
        (lexicographicalCompare _ _ 9 (fun x y : Int => decide (x < y)) id (-·)) less ∧
      ComputesBoth (evenSquares.compile 9) (evens.compile 9)
        (lexicographicalCompare _ _ 9 (fun x y : Int => decide (x < y)) (-·) id) greater ∧
      ComputesBoth (evens.compile 9) (evenSquares.compile 9)
        (equal _ _ 9 fun x y => sameClass (fun x y : Int => decide (x < y)) (id x) (-y)) same ∧
      less = lexLt (fun x y : Int => decide (x < y)) [0, 2, 4, 6] [-36, -16, -4, 0] ∧
      (same = true ↔ less = false ∧ greater = false) ∧ ¬ (less = true ∧ greater = true) :=
  lexicographical_trichotomy evens evenSquares ⟨trivial, trivial⟩ evenSquares_wellFormed
    (by decide) (by decide) (.of_linearOrder Int) id (-·)

end Pipeline

end EARanges.Adaptor
