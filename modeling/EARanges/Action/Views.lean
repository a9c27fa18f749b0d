import EARanges.Action.Closure
import EARanges.Adaptor.Programs

/-!
# Actions and the views of their names

`actions::drop` and `views::drop`, and so on: an action changes the container, the view of its
name leaves it alone and does the work when it is read. A view looks at the elements under it,
where `actions::unique` looks at the last element it has kept, so that its predicate must be an
equivalence.
-/
namespace EARanges.Action
open EARanges.Support EARanges.Iterator EARanges.Algorithm EARanges.View EARanges.Adaptor

variable {α : Type}

/-- An action, and the view of its name with the same arguments. -/
inductive Counterpart : ActionClosure α → ViewClosure α α → Prop
  | drop (n : Nat) : Counterpart (.drop n) (.drop n)
  | take (n : Nat) : Counterpart (.take n) (.take n)
  | dropWhile (pred : α → Bool) : Counterpart (.dropWhile pred) (.dropWhile pred)
  | takeWhile (pred : α → Bool) : Counterpart (.takeWhile pred) (.takeWhile pred)
  | removeIf {κ : Type} (pred : κ → Bool) (proj : α → κ) :
    Counterpart (.removeIf pred proj) (.removeIf fun x => pred (proj x))
  | remove {κ : Type} [BEq κ] (value : κ) (proj : α → κ) :
    Counterpart (.remove value proj) (.removeIf fun x => proj x == value)
  | unique {κ : Type} {pred : κ → κ → Bool} (h : IsEquivalence pred) (proj : α → κ) :
    Counterpart (.unique pred proj) (.unique (projected pred proj))
  | transform {κ : Type} (fun_ : κ → α) (proj : α → κ) :
    Counterpart (.transform fun_ proj) (.transform fun x => fun_ (proj x))
  | reverse : Counterpart .reverse .reverse

theorem sizedIterator_of_randomAccess (t : Iterator.RangeTraits) (h : t.randomAccess = true) :
    t.sizedIterator = true :=
  t.sized_of_random (eq_of_beq h)

/-- What `ref_view` offers of the container. -/
def viewed (t : Iterator.RangeTraits) : Capabilities where
  bidirectional := t.bidirectional
  randomAccess := t.randomAccess
  common := t.common
  sized := t.sized
  sizedIter := t.sizedIterator
  sizedSentinel := t.sizedSentinel
  bidirectional_of_random := t.bidirectional_of_randomAccess
  sizedIter_of_random := sizedIterator_of_randomAccess t
  sentinel_of_common := t.sentinel_of_common

/-- `views::all(rng)`. -/
def all (c : BaseRange α) : Pipeline α :=
  .source ⟨sequence (viewed c.traits) c.list, c.list, lawful_sequence _ _⟩

/-- `p | a | b | …`. -/
def through : List (ViewClosure α α) → Pipeline α → Pipeline α
  | [], p => p
  | v :: views, p => through views (p.view v)

theorem uniquedFrom_congr {rel : α → α → Bool} (h : IsEquivalence rel) {x y : α}
    (hxy : rel x y = true) (l : List α) : uniquedFrom rel x l = uniquedFrom rel y l := by
  induction l with
  | nil => rfl
  | cons z l ih =>
    have hz := h.congr_left hxy z
    cases hxz : rel x z with
    | true => rw [uniquedFrom_related hxz, uniquedFrom_related (hz.symm.trans hxz), ih]
    | false => rw [uniquedFrom_unrelated hxz, uniquedFrom_unrelated (hz.symm.trans hxz)]

/-- Of an equivalence, it does not matter which element of the run is compared. -/
theorem uniquedFrom_eq_relatedFrom {rel : α → α → Bool} (h : IsEquivalence rel) (x : α)
    (l : List α) :
    uniquedFrom rel x l = AdjacentFilterView.relatedFrom (fun x y => !rel x y) x l := by
  induction l generalizing x with
  | nil => rfl
  | cons y l ih =>
    cases hxy : rel x y with
    | true =>
      rw [uniquedFrom_related hxy, uniquedFrom_congr h hxy, ih, AdjacentFilterView.relatedFrom, hxy]
      rfl
    | false =>
      rw [uniquedFrom_unrelated hxy, ih, AdjacentFilterView.relatedFrom, hxy]
      rfl

theorem uniqued_eq_related {rel : α → α → Bool} (h : IsEquivalence rel) (l : List α) :
    uniqued rel l = AdjacentFilterView.related (fun x y => !rel x y) l := by
  cases l with
  | nil => rfl
  | cons x l => rw [uniqued_cons, uniquedFrom_eq_relatedFrom h, AdjacentFilterView.related]

example :
    uniqued (fun x y : Nat => decide (y ≤ x + 1)) [1, 2, 3] = [1, 3] ∧
      AdjacentFilterView.related (fun x y : Nat => !decide (y ≤ x + 1)) [1, 2, 3] = [1] := by decide

namespace Counterpart

variable {a : ActionClosure α} {v : ViewClosure α α}

/-- Both make the same of the elements. -/
theorem does_iff (h : Counterpart a v) {l r : List α} : a.Does l r ↔ r = v.denote l := by
  cases h with
  | unique hpred proj =>
    have hrel : IsEquivalence (projected _ proj) := hpred.comap proj
    rw [ActionClosure.Does, uniqued_eq_related hrel]
    rfl
  | _ => rfl

theorem accepts (h : Counterpart a v) {t : Iterator.RangeTraits} {caps : Capabilities} {l : List α}
    (hcaps : caps.bidirectional = t.bidirectional) (hallowed : a.Allowed t l) (n : Nat) :
    v.Accepts caps n := by
  cases h with
  | reverse => exact hcaps.trans hallowed
  | _ => trivial

/-- No view of them takes away the way back. -/
theorem bidirectional_apply (h : Counterpart a v) {R : RangeModel α} {n : Nat}
    (haccepts : v.Accepts R.caps n) (fuel : Nat) :
    (v.apply fuel R).caps.bidirectional = R.caps.bidirectional := by
  cases h with
  | take count =>
    change (Adaptor.take R count).caps.bidirectional = R.caps.bidirectional
    unfold Adaptor.take
    split_ifs <;> rfl
  | reverse =>
    exact haccepts.symm
  | _ => rfl

theorem bidirectional_compile (h : Counterpart a v) {p : Pipeline α} {fuel : Nat}
    (hwell : (p.view v).WellFormed fuel) :
    ((p.view v).compile fuel).caps.bidirectional = (p.compile fuel).caps.bidirectional := by
  by_cases htwice : ∃ q : Pipeline α, p = q.view .reverse ∧ v = .reverse
  · obtain ⟨q, rfl, rfl⟩ := htwice
    have hrev : ((q.view .reverse).compile fuel).caps.bidirectional = true := hwell.2
    have hbase : (q.compile fuel).caps.bidirectional = true := hwell.1.2
    rw [Pipeline.compile, hbase, hrev]
  · rw [Pipeline.compile]
    · exact h.bidirectional_apply hwell.2 fuel
    · exact fun q _ hp hv => htwice ⟨q, eq_of_heq hp, eq_of_heq hv⟩

end Counterpart

/-- Where the actions may be run, the views of their names may be put together, and both make the
same of the elements. -/
theorem through_does {actions : List (ActionClosure α)} {views : List (ViewClosure α α)}
    (h : List.Forall₂ Counterpart actions views) {t : Iterator.RangeTraits} {p : Pipeline α}
    (fuel : Nat) (hallowed : AllAllowed t actions p.denote) (hwell : p.WellFormed fuel)
    (hcaps : (p.compile fuel).caps.bidirectional = t.bidirectional) :
    (through views p).WellFormed fuel ∧
      ((through views p).compile fuel).caps.bidirectional = t.bidirectional ∧
      (through views p).longest = p.longest ∧
      ∀ l, AllDo actions p.denote l → l = (through views p).denote := by
  induction h generalizing p with
  | nil => exact ⟨hwell, hcaps, rfl, fun l hl => hl⟩
  | @cons a v actions views hhead _ ih =>
    obtain ⟨hfirst, hrest⟩ := hallowed
    have hwell' : (p.view v).WellFormed fuel := ⟨hwell, hhead.accepts hcaps hfirst _⟩
    obtain ⟨hthrough, hbidir, hlongest, hdo⟩ := ih (hrest _ (hhead.does_iff.mpr rfl)) hwell'
      ((hhead.bidirectional_compile hwell').trans hcaps)
    refine ⟨hthrough, hbidir, hlongest, ?_⟩
    rintro l ⟨m, hdoes, hl⟩
    obtain rfl := hhead.does_iff.mp hdoes
    exact hdo l hl

theorem allowed_congr {γ : Type} (prog : Program α γ) {caps caps' : Capabilities}
    (h : caps.bidirectional = caps'.bidirectional) (hallowed : prog.Allowed caps) :
    prog.Allowed caps' := by
  induction prog with
  | done r => trivial
  | call c rest ih =>
    refine ⟨?_, fun r => ih r (hallowed.2 r)⟩
    have hcall := hallowed.1
    cases c with
    | foldRight init op => exact h.symm.trans hcall
    | foldRightLast op => exact h.symm.trans hcall
    | _ => trivial

end EARanges.Action
