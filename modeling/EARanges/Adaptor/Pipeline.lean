import EARanges.Adaptor.AdjacentFilter
import EARanges.Adaptor.AnyView
import EARanges.Adaptor.Client
import EARanges.Adaptor.Common
import EARanges.Adaptor.Counted
import EARanges.Adaptor.RemoveIf
import EARanges.Adaptor.Reverse
import EARanges.Adaptor.Source
import EARanges.Adaptor.Suffix
import EARanges.Adaptor.TakeWhile
import EARanges.Adaptor.Transform
import EARanges.Adaptor.Zip

/-!
# Pipelines of views

`rng | views::transform(f) | views::filter(p) | …`, nested to any depth. `compile` is the view
that the library builds, an object with caches, iterators and sentinels at each level; `denote` is
the list it stands for. Every pipeline that meets the constraints of its views is a range of that
list, whatever program uses it.
-/
namespace EARanges.Adaptor
open EARanges.Support EARanges.View

/-- What stands behind a `|`. -/
inductive ViewClosure : Type → Type → Type 1 where
  | transform {α β : Type} (fun_ : α → β) : ViewClosure α β
  | removeIf {α : Type} (pred : α → Bool) : ViewClosure α α
  | adjacentFilter {α : Type} (pred : α → α → Bool) : ViewClosure α α
  | take {α : Type} (count : Nat) : ViewClosure α α
  | takeExactly {α : Type} (n : Nat) : ViewClosure α α
  | takeWhile {α : Type} (pred : α → Bool) : ViewClosure α α
  | delimit {α : Type} [BEq α] (value : α) : ViewClosure α α
  | drop {α : Type} (n : Nat) : ViewClosure α α
  | dropExactly {α : Type} (n : Nat) : ViewClosure α α
  | dropWhile {α : Type} (pred : α → Bool) : ViewClosure α α
  | tail {α : Type} : ViewClosure α α
  | trim {α : Type} (pred : α → Bool) : ViewClosure α α
  | reverse {α : Type} : ViewClosure α α
  | common {α : Type} : ViewClosure α α
  | any {α : Type} (cat : AnyCategory) (constEnd : Bool) : ViewClosure α α

namespace ViewClosure

/-- `views::filter`. -/
def filter {α : Type} (pred : α → Bool) : ViewClosure α α := removeIf fun x => !pred x

/-- `views::unique`. -/
def unique {α : Type} (pred : α → α → Bool) : ViewClosure α α := adjacentFilter fun x y => !pred x y

/-- The view of a base. -/
def apply (fuel : Nat) : {α β : Type} → ViewClosure α β → RangeModel α → RangeModel β
  | _, _, .transform fun_, R => Adaptor.transform fun_ R
  | _, _, .removeIf pred, R => Adaptor.removeIf R fuel pred
  | _, _, .adjacentFilter pred, R => Adaptor.adjacentFilter R fuel pred
  | _, _, .take count, R => Adaptor.take R count
  | _, _, .takeExactly n, R => Adaptor.takeExactly R n
  | _, _, .takeWhile pred, R => Adaptor.takeWhile R pred
  | _, _, @delimit _ _ value, R => Adaptor.delimit R value
  | _, _, .drop n, R => Adaptor.drop R fuel n
  | _, _, .dropExactly n, R => Adaptor.dropExactly R n
  | _, _, .dropWhile pred, R => Adaptor.dropWhile R fuel pred
  | _, _, .tail, R => Adaptor.tail R fuel
  | _, _, .trim pred, R => Adaptor.trim R fuel pred
  | _, _, .reverse, R => Adaptor.reverse R fuel
  | _, _, .common, R => Adaptor.common R fuel
  | _, _, .any cat constEnd, R => anyView R cat constEnd

/-- What the view does to the elements. -/
def denote : {α β : Type} → ViewClosure α β → List α → List β
  | _, _, .transform fun_, xs => xs.map fun_
  | _, _, .removeIf pred, xs => xs.filter fun x => !pred x
  | _, _, .adjacentFilter pred, xs => AdjacentFilterView.related pred xs
  | _, _, .take count, xs => xs.take count
  | _, _, .takeExactly n, xs => xs.take n
  | _, _, .takeWhile pred, xs => xs.takeWhile pred
  | _, _, @delimit _ _ value, xs => xs.takeWhile (· != value)
  | _, _, .drop n, xs => xs.drop n
  | _, _, .dropExactly n, xs => xs.drop n
  | _, _, .dropWhile pred, xs => xs.dropWhile pred
  | _, _, .tail, xs => xs.tail
  | _, _, .trim pred, xs => (xs.dropWhile pred).rdropWhile pred
  | _, _, .reverse, xs => xs.reverse
  | _, _, .common, xs => xs
  | _, _, .any _ _, xs => xs

/-- The concepts that the view requires of a base with `n` elements, and the count that
`take_exactly` and `drop_exactly` are promised. -/
def Accepts : {α β : Type} → ViewClosure α β → Capabilities → Nat → Prop
  | _, _, .takeExactly k, _, n => k ≤ n
  | _, _, .dropExactly k, _, n => k ≤ n
  | _, _, .trim _, caps, _ => caps.bidirectional = true ∧ caps.common = true
  | _, _, .reverse, caps, _ => caps.bidirectional = true
  | _, _, .any cat _, caps, _ => (AnyCategory.ofCapabilities caps).has cat = true
  | _, _, _, _, _ => True

/-- The view of a range that it accepts. -/
theorem lawful {α β : Type} (v : ViewClosure α β) {R : RangeModel α} {xs : List α} {fuel : Nat}
    (h : Lawful R xs) (haccepts : v.Accepts R.caps xs.length) (hfuel : xs.length < fuel) :
    Lawful (v.apply fuel R) (v.denote xs) := by
  cases v with
  | transform fun_ => exact lawful_transform h fun_
  | removeIf pred => exact lawful_removeIf h hfuel pred
  | adjacentFilter pred => exact lawful_adjacentFilter h hfuel pred
  | take count => exact lawful_take h count
  | takeExactly n => exact lawful_takeExactly h haccepts
  | takeWhile pred => exact lawful_takeWhile h pred
  | delimit value => exact lawful_delimit h value
  | drop n => exact lawful_drop h hfuel n
  | dropExactly n => exact lawful_dropExactly h haccepts
  | dropWhile pred => exact lawful_dropWhile h hfuel pred
  | tail => exact lawful_tail h hfuel
  | trim pred => exact lawful_trim h haccepts.1 haccepts.2 hfuel pred
  | reverse => exact lawful_reverse h haccepts hfuel
  | common => exact lawful_common h hfuel
  | any cat constEnd => exact lawful_anyView h haccepts constEnd

theorem length_related {α : Type} (pred : α → α → Bool) (xs : List α) :
    (AdjacentFilterView.related pred xs).length ≤ xs.length := by
  cases xs with
  | nil => exact Nat.le_refl 0
  | cons x xs =>
    apply Nat.succ_le_succ
    induction xs generalizing x with
    | nil => exact Nat.le_refl 0
    | cons y xs ih =>
      rw [AdjacentFilterView.relatedFrom]
      split
      · exact Nat.succ_le_succ (ih y)
      · exact Nat.le_succ_of_le (ih y)

theorem length_denote {α β : Type} (v : ViewClosure α β) (xs : List α) :
    (v.denote xs).length ≤ xs.length := by
  cases v with
  | transform fun_ => exact Nat.le_of_eq (List.length_map fun_)
  | removeIf pred => exact List.length_filter_le _ xs
  | adjacentFilter pred => exact length_related pred xs
  | take count => exact List.length_take_le' count xs
  | takeExactly n => exact List.length_take_le' n xs
  | takeWhile pred => exact (List.takeWhile_sublist pred).length_le
  | delimit value => exact (List.takeWhile_sublist _).length_le
  | drop n => exact (List.drop_sublist n xs).length_le
  | dropExactly n => exact (List.drop_sublist n xs).length_le
  | dropWhile pred => exact (List.dropWhile_sublist pred).length_le
  | tail => exact (List.tail_sublist xs).length_le
  | trim pred =>
    exact ((List.rdropWhile_prefix pred _).sublist.trans (List.dropWhile_sublist pred)).length_le
  | reverse => exact Nat.le_of_eq List.length_reverse
  | common => exact Nat.le_refl _
  | any cat constEnd => exact Nat.le_refl _

end ViewClosure

inductive Pipeline : Type → Type 1 where
  | source {β : Type} (rng : LawfulRange β) : Pipeline β
  | view {α β : Type} (p : Pipeline α) (v : ViewClosure α β) : Pipeline β
  | zipWith {α β γ : Type} (fun_ : α → β → γ) (p : Pipeline α) (q : Pipeline β) : Pipeline γ

namespace Pipeline

/-- The view. `reverse_view` of a `reverse_view` is the view inside. -/
def compile (fuel : Nat) : {β : Type} → Pipeline β → RangeModel β
  | _, .source rng => rng.model
  | _, .view (.view p .reverse) .reverse => compile fuel p
  | _, .view p v => v.apply fuel (compile fuel p)
  | _, .zipWith fun_ p q => Adaptor.zipWith (compile fuel p) (compile fuel q) fun_

/-- The elements. -/
def denote : {β : Type} → Pipeline β → List β
  | _, .source rng => rng.elements
  | _, .view p v => v.denote p.denote
  | _, .zipWith fun_ p q => List.zipWith fun_ p.denote q.denote

/-- Each view accepts its base. Two ranges that are zipped must have one length if it is possible
to go back from the end. -/
def WellFormed (fuel : Nat) : {β : Type} → Pipeline β → Prop
  | _, .source _ => True
  | _, .view p v => p.WellFormed fuel ∧ v.Accepts (p.compile fuel).caps p.denote.length
  | _, .zipWith fun_ p q =>
    p.WellFormed fuel ∧ q.WellFormed fuel ∧
      (((zipWith fun_ p q).compile fuel).caps.common = true →
        ((zipWith fun_ p q).compile fuel).caps.bidirectional = true →
        p.denote.length = q.denote.length)

/-- The length of the longest source. -/
def longest : {β : Type} → Pipeline β → Nat
  | _, .source rng => rng.elements.length
  | _, .view p _ => p.longest
  | _, .zipWith _ p q => max p.longest q.longest

theorem length_denote {β : Type} (p : Pipeline β) : p.denote.length ≤ p.longest := by
  induction p with
  | source rng => exact Nat.le_refl _
  | view p v ih => exact Nat.le_trans (v.length_denote p.denote) ih
  | zipWith fun_ p q ihp ihq =>
    have hlength : (List.zipWith fun_ p.denote q.denote).length = _ := List.length_zipWith
    rw [denote, longest, hlength]
    omega

theorem lawful (fuel : Nat) {β : Type} (p : Pipeline β) (hwell : p.WellFormed fuel)
    (hfuel : p.longest < fuel) : Lawful (p.compile fuel) p.denote := by
  fun_induction compile fuel p with
  | case1 β rng => exact rng.lawful
  | case2 β p ih =>
    have hp := ih hwell.1.1 hfuel
    rwa [denote, denote, ViewClosure.denote, ViewClosure.denote, List.reverse_reverse]
  | case3 α β p v hrest ih =>
    exact v.lawful (ih hwell.1 hfuel) hwell.2 (Nat.lt_of_le_of_lt p.length_denote hfuel)
  | case4 α β γ fun_ p q ihp ihq =>
    obtain ⟨hp, hq, hlength⟩ := hwell
    exact lawful_zipWith (ihp hp (lt_of_le_of_lt (Nat.le_max_left _ _) hfuel))
      (ihq hq (lt_of_le_of_lt (Nat.le_max_right _ _) hfuel)) fun_ hlength

/-- `ints(0, 8)`. -/
def intsBelowEight : Pipeline Int :=
  .source ⟨iota 0 8, integers 0 8, lawful_iota (by decide)⟩

/-- `ints(0, 8) | transform(square) | filter(even) | reverse`. -/
def evenSquares : Pipeline Int :=
  .view (.view (.view intsBelowEight (.transform fun x => x * x)) (.filter fun x => x % 2 == 0))
    .reverse

theorem evenSquares_wellFormed : evenSquares.WellFormed 9 := ⟨⟨⟨trivial, trivial⟩, trivial⟩, rfl⟩

end Pipeline

end EARanges.Adaptor
