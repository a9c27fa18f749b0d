import EARanges.Action.Erase
import EARanges.Action.Stride
import EARanges.Algorithm.NextPermutation
import EARanges.Algorithm.Sort
import EARanges.Algorithm.StableSort
import EARanges.Support.SortByKeys

/-!
# Pipelines of actions

`rng | actions::sort | actions::unique | …` (action/action.hpp), with action/transform.hpp,
action/reverse.hpp, action/sort.hpp and action/stable_sort.hpp. An action changes the container in
place, and the next one is applied to what it has left. `Does` says what an action is for; a sort
leaves it open in which order equivalent elements stand.
-/
namespace EARanges.Action
open EARanges.Support EARanges.Iterator EARanges.View EARanges.Algorithm

variable {α : Type}

/-- What the actions depend on besides the container. No buffer is too small for one element. -/
structure Setting (α : Type) where
  lang : IfConstexpr
  husk : α → α
  trivial : Bool
  getBuffer : Nat → Utility.TemporaryBuffer
  usable : ∀ n, (getBuffer n).Usable

/-- What stands behind a `|`. -/
inductive ActionClosure (α : Type) : Type 1 where
  | drop (n : Int)
  | take (n : Int)
  | dropWhile (fun_ : α → Bool)
  | takeWhile (fun_ : α → Bool)
  | removeIf {κ : Type} (pred : κ → Bool) (proj : α → κ)
  | remove {κ : Type} [BEq κ] (value : κ) (proj : α → κ)
  | adjacentRemoveIf {κ : Type} (pred : κ → κ → Bool) (proj : α → κ)
  | unique {κ : Type} (pred : κ → κ → Bool) (proj : α → κ)
  | transform {κ : Type} (fun_ : κ → α) (proj : α → κ)
  | reverse
  | stride (step : Int)
  | slice (first last : Int)
  | sort {κ : Type} (pred : κ → κ → Bool) (proj : α → κ)
  | stableSort {κ : Type} (pred : κ → κ → Bool) (proj : α → κ)

def iteratorTag : Category → IteratorTag
  | .randomAccess => .randomAccess
  | .bidirectional => .bidirectional
  | _ => .forward

/-- What the algorithms see of the container. -/
def algorithmTraits (s : Setting α) (t : Iterator.RangeTraits) : Algorithm.RangeTraits :=
  ⟨iteratorTag t.category, s.trivial, t.sizedSentinel⟩

/-- `actions::transform(rng, fun, proj)`. -/
def transform {κ : Type} (fun_ : κ → α) (proj : α → κ) (c : BaseRange α) : Exec (BaseRange α) := do
  let (l, _) ← Algorithm.transform fun_ proj c.list
  .ok { c with list := l }

/-- `actions::reverse(rng)`. -/
def reverse (c : BaseRange α) : Exec (BaseRange α) := do
  let l ← Algorithm.reverse (iteratorTag c.traits.category) c.list
  .ok { c with list := l }

/-- `actions::sort(rng, pred, proj)`. -/
def sort {κ : Type} (pred : κ → κ → Bool) (proj : α → κ) (c : BaseRange α) :
    Exec (BaseRange α) := do
  let (l, _) ← Algorithm.sort pred proj c.list
  .ok { c with list := l }

/-- `actions::stable_sort(rng, pred, proj)`. -/
def stableSort {κ : Type} (s : Setting α) (pred : κ → κ → Bool) (proj : α → κ)
    (c : BaseRange α) : Exec (BaseRange α) := do
  let (l, _) ← Algorithm.stableSort pred proj (algorithmTraits s c.traits) s.getBuffer
    (c.length + 2) c.list
  .ok { c with list := l }

theorem transform_eq {κ : Type} (fun_ : κ → α) (proj : α → κ) (c : BaseRange α) :
    transform fun_ proj c = .ok { c with list := c.list.map fun x => fun_ (proj x) } := by
  rw [transform, transform_spec, exec_bind_ok]

theorem reverse_eq (c : BaseRange α) :
    reverse c = .ok { c with list := c.list.reverse } := by
  rw [reverse, reverse_spec, exec_bind_ok]

theorem sort_sorts {κ : Type} {pred : κ → κ → Bool} (h : StrictWeakOrder pred) (proj : α → κ)
    (c : BaseRange α) :
    ∃ l, sort pred proj c = .ok { c with list := l } ∧ c.list.Perm l ∧
      Sorted (projected pred proj) l := by
  obtain ⟨l, hrun, hperm, hsorted⟩ := sort_spec h proj c.list
  refine ⟨l, ?_, hperm, hsorted⟩
  rw [sort, hrun, exec_bind_ok]

theorem stableSort_sorts {κ : Type} (s : Setting α) {pred : κ → κ → Bool}
    (h : StrictWeakOrder pred) (proj : α → κ) (c : BaseRange α) :
    ∃ l, stableSort s pred proj c = .ok { c with list := l } ∧
      IsStableSort (projected pred proj) c.list l := by
  obtain ⟨l, hl, hinplace, hadaptive⟩ :=
    stableSort_paths h proj (algorithmTraits s c.traits) c.list
  refine ⟨l, ?_, hl⟩
  rw [stableSort, BaseRange.length,
    stableSort_eq hinplace hadaptive (.inr (s.usable _)) (Nat.lt_succ_self _), exec_bind_ok]

theorem stride_eq (s : Setting α) (c : BaseRange α) {step : Nat} (hstep : 0 < step) :
    stride s.lang s.husk c step =
      .ok { c with list := StrideView.strided step hstep c.list } := by
  obtain hone | rfl : 1 < step ∨ step = 1 := by omega
  · exact stride_moving c hone
  · rw [strided_one]
    rfl

namespace ActionClosure

def run (s : Setting α) : ActionClosure α → BaseRange α → Exec (BaseRange α)
  | drop n, c => Action.drop s.lang c n
  | take n, c => Action.take s.lang c n
  | dropWhile fun_, c => Action.dropWhile c fun_
  | takeWhile fun_, c => Action.takeWhile c fun_
  | removeIf pred proj, c => Action.removeIf s.husk pred proj c
  | @remove _ _ _ value proj, c => Action.remove s.husk value proj c
  | adjacentRemoveIf pred proj, c => Action.adjacentRemoveIf s.husk pred proj c
  | unique pred proj, c => Action.unique pred proj c
  | transform fun_ proj, c => Action.transform fun_ proj c
  | reverse, c => Action.reverse c
  | stride step, c => Action.stride s.lang s.husk c step
  | slice first last, c => Slice.between c first last
  | sort pred proj, c => Action.sort pred proj c
  | stableSort pred proj, c => Action.stableSort s pred proj c

/-- What the action makes of the elements. -/
def Does : ActionClosure α → List α → List α → Prop
  | drop n, l, r => r = l.drop n.toNat
  | take n, l, r => r = l.take n.toNat
  | dropWhile fun_, l, r => r = l.dropWhile fun_
  | takeWhile fun_, l, r => r = l.takeWhile fun_
  | removeIf pred proj, l, r => r = l.filter fun x => !pred (proj x)
  | @remove _ _ _ value proj, l, r => r = l.filter fun x => !(proj x == value)
  | adjacentRemoveIf pred proj, l, r => r = keptByNext (projected pred proj) l
  | unique pred proj, l, r => r = uniqued (projected pred proj) l
  | transform fun_ proj, l, r => r = l.map fun x => fun_ (proj x)
  | reverse, l, r => r = l.reverse
  | stride step, l, r => ∀ i : Nat, r[i]? = l[i * step.toNat]?
  | slice first last, l, r => r = (l.drop first.toNat).take (last.toNat - first.toNat)
  | sort pred proj, l, r => l.Perm r ∧ Sorted (projected pred proj) r
  | stableSort pred proj, l, r => IsStableSort (projected pred proj) l r

/-- What the action requires of its arguments and of the container, with these elements. -/
def Allowed (t : Iterator.RangeTraits) (l : List α) : ActionClosure α → Prop
  | drop n => 0 ≤ n
  | take n => 0 ≤ n
  | reverse => t.bidirectional = true
  | stride step => 0 < step
  | slice first last => 0 ≤ first ∧ first ≤ last ∧ last ≤ l.length
  | sort pred _ => StrictWeakOrder pred
  | stableSort pred _ => StrictWeakOrder pred
  | _ => True

/-- The elements left are elements that were there. -/
def OnlyMoves : ActionClosure α → Prop
  | transform _ _ => False
  | _ => True

theorem Does.subperm {a : ActionClosure α} {t : Iterator.RangeTraits} {l r : List α}
    (hmoves : a.OnlyMoves) (hallowed : a.Allowed t l) (hdoes : a.Does l r) : r.Subperm l := by
  cases a with
  | drop n => exact hdoes ▸ (List.drop_sublist _ l).subperm
  | take n => exact hdoes ▸ (List.take_sublist _ l).subperm
  | dropWhile fun_ => exact hdoes ▸ (List.dropWhile_sublist fun_).subperm
  | takeWhile fun_ => exact hdoes ▸ (List.takeWhile_sublist fun_).subperm
  | removeIf pred proj => exact hdoes ▸ List.filter_sublist.subperm
  | remove value proj => exact hdoes ▸ List.filter_sublist.subperm
  | adjacentRemoveIf pred proj => exact hdoes ▸ (keptByNext_sublist _ l).subperm
  | unique pred proj => exact hdoes ▸ (List.destutter_sublist _ l).subperm
  | transform fun_ proj => exact hmoves.elim
  | reverse => exact hdoes ▸ (List.reverse_perm l).subperm
  | stride step =>
    have hstep : 0 < step := hallowed
    exact (sublist_of_multiples (by omega) hdoes).subperm
  | slice first last =>
    have htake := List.take_sublist (last.toNat - first.toNat) (l.drop first.toNat)
    exact hdoes ▸ (htake.trans (List.drop_sublist _ l)).subperm
  | sort pred proj => exact hdoes.1.symm.subperm
  | stableSort pred proj => exact hdoes.stable.perm.symm.subperm

/-- Each action does what it is for, and leaves the kind of container as it is. -/
theorem run_does (s : Setting α) (a : ActionClosure α) (c : BaseRange α)
    (hallowed : a.Allowed c.traits c.list) :
    ∃ l, a.run s c = .ok { c with list := l } ∧ a.Does c.list l := by
  cases a with
  | drop n =>
    obtain ⟨n, rfl⟩ := Int.eq_ofNat_of_zero_le hallowed
    exact ⟨_, drop_eq n, rfl⟩
  | take n =>
    obtain ⟨n, rfl⟩ := Int.eq_ofNat_of_zero_le hallowed
    exact ⟨_, take_eq n, rfl⟩
  | dropWhile fun_ => exact ⟨_, dropWhile_eq fun_, rfl⟩
  | takeWhile fun_ => exact ⟨_, takeWhile_eq fun_, rfl⟩
  | removeIf pred proj => exact ⟨_, removeIf_eq pred proj, rfl⟩
  | remove value proj => exact ⟨_, removeIf_eq (fun k => k == value) proj, rfl⟩
  | adjacentRemoveIf pred proj => exact ⟨_, adjacentRemoveIf_eq pred proj, rfl⟩
  | unique pred proj => exact ⟨_, unique_eq pred proj, rfl⟩
  | transform fun_ proj => exact ⟨_, transform_eq fun_ proj c, rfl⟩
  | reverse => exact ⟨_, reverse_eq c, rfl⟩
  | stride step =>
    obtain ⟨step, rfl⟩ := Int.eq_ofNat_of_zero_le (Int.le_of_lt hallowed)
    have hstep : 0 < step := Int.ofNat_lt.mp hallowed
    exact ⟨_, stride_eq s c hstep, StrideView.getElem?_strided hstep c.list⟩
  | slice first last =>
    obtain ⟨hfirst, hle, hlast⟩ := hallowed
    obtain ⟨first, rfl⟩ := Int.eq_ofNat_of_zero_le hfirst
    obtain ⟨last, rfl⟩ := Int.eq_ofNat_of_zero_le (Int.le_trans hfirst hle)
    exact ⟨_, Slice.between_eq (Int.ofNat_le.mp hle) (Int.ofNat_le.mp hlast), rfl⟩
  | sort pred proj => exact sort_sorts hallowed proj c
  | stableSort pred proj => exact stableSort_sorts s hallowed proj c

end ActionClosure

/-! ## Pipelines -/

/-- `rng | a | b | …`, and `rng |= a | b | …`. -/
def pipe (s : Setting α) : List (ActionClosure α) → BaseRange α → Exec (BaseRange α)
  | [], c => .ok c
  | a :: rest, c => do
    let c ← a.run s c
    pipe s rest c

def AllDo : List (ActionClosure α) → List α → List α → Prop
  | [], l, r => r = l
  | a :: rest, l, r => ∃ m, a.Does l m ∧ AllDo rest m r

/-- Each action is allowed on whatever the ones before it may leave. -/
def AllAllowed (t : Iterator.RangeTraits) : List (ActionClosure α) → List α → Prop
  | [], _ => True
  | a :: rest, l => a.Allowed t l ∧ ∀ m, a.Does l m → AllAllowed t rest m

theorem pipe_run (s : Setting α) (actions : List (ActionClosure α)) (c : BaseRange α)
    (hallowed : AllAllowed c.traits actions c.list) :
    ∃ l, pipe s actions c = .ok { c with list := l } ∧ AllDo actions c.list l := by
  induction actions generalizing c with
  | nil => exact ⟨c.list, rfl, rfl⟩
  | cons a rest ih =>
    obtain ⟨m, hrun, hdoes⟩ := a.run_does s c hallowed.1
    obtain ⟨l, hpipe, hall⟩ := ih { c with list := m } (hallowed.2 m hdoes)
    refine ⟨l, ?_, m, hdoes, hall⟩
    rw [pipe, hrun, exec_bind_ok, hpipe]

theorem AllDo.subperm {actions : List (ActionClosure α)} {t : Iterator.RangeTraits} {l r : List α}
    (hmoves : ∀ a ∈ actions, a.OnlyMoves) (hallowed : AllAllowed t actions l)
    (hdo : AllDo actions l r) : r.Subperm l := by
  induction actions generalizing l with
  | nil => exact hdo ▸ List.Subperm.refl l
  | cons a rest ih =>
    obtain ⟨hmove, hrest⟩ := List.forall_mem_cons.mp hmoves
    obtain ⟨m, hdoes, hdo⟩ := hdo
    exact (ih hrest (hallowed.2 m hdoes) hdo).trans (hdoes.subperm hmove hallowed.1)

/-- A setting without temporary buffers, in which a moved-from value is 0. -/
def plainSetting : Setting Nat := ⟨.cxx17, fun _ => 0, true, fun _ => ⟨false, 0⟩, fun _ => nofun⟩

theorem allDo_append {as bs : List (ActionClosure α)} {l r : List α} :
    AllDo (as ++ bs) l r ↔ ∃ m, AllDo as l m ∧ AllDo bs m r := by
  induction as generalizing l with
  | nil =>
    constructor
    · exact fun h => ⟨l, rfl, h⟩
    · rintro ⟨m, rfl, h⟩
      exact h
  | cons a as ih =>
    constructor
    · rintro ⟨k, hdoes, h⟩
      obtain ⟨m, has, hbs⟩ := ih.mp h
      exact ⟨m, ⟨k, hdoes, has⟩, hbs⟩
    · rintro ⟨m, ⟨k, hdoes, has⟩, hbs⟩
      exact ⟨k, hdoes, ih.mpr ⟨m, has, hbs⟩⟩

theorem allAllowed_append {t : Iterator.RangeTraits} {as bs : List (ActionClosure α)} {l : List α}
    (has : AllAllowed t as l) (hbs : ∀ m, AllDo as l m → AllAllowed t bs m) :
    AllAllowed t (as ++ bs) l := by
  induction as generalizing l with
  | nil => exact hbs l rfl
  | cons a as ih =>
    exact ⟨has.1, fun k hdoes => ih (has.2 k hdoes) fun m hm => hbs m ⟨k, hdoes, hm⟩⟩

/-! ## Sorting by several keys -/

/-- Stable sorts, by the last order first. -/
def sortPasses : List (α → α → Bool) → List (ActionClosure α)
  | [] => []
  | lt :: keys => sortPasses keys ++ [.stableSort lt id]

/-- The passes so far have sorted the container by the keys behind the one that is next. -/
theorem sortPasses_do {keys : List (α → α → Bool)} (hkeys : ∀ lt ∈ keys, StrictWeakOrder lt)
    (t : Iterator.RangeTraits) (l : List α) :
    AllAllowed t (sortPasses keys) l ∧
      ∀ r, AllDo (sortPasses keys) l r → IsStableSort (byKeys keys) l r := by
  induction keys with
  | nil =>
    refine ⟨trivial, ?_⟩
    rintro r rfl
    exact ⟨List.pairwise_of_forall fun _ _ => rfl, .refl r⟩
  | cons lt keys ih =>
    obtain ⟨hlt, hkeys⟩ := List.forall_mem_cons.mp hkeys
    obtain ⟨hallowed, hsorts⟩ := ih hkeys
    refine ⟨allAllowed_append hallowed fun m _ => ⟨hlt, fun _ _ => trivial⟩, fun r hr => ?_⟩
    obtain ⟨m, hm, r', hr', rfl⟩ := allDo_append.mp hr
    exact (hsorts m hm).refine hlt hr'

/-- By the tens, then by the units from 9 down. -/
def digitKeys : List (Nat → Nat → Bool) :=
  [fun a b => decide (a / 10 < b / 10), fun a b => decide (b % 10 < a % 10)]

/-- What is dropped is related to the last element taken before it. -/
theorem exists_uniquedFrom {rel : α → α → Bool} (hrel : ∀ x, rel x x = true) {l : List α}
    {x z : α} (hz : z ∈ x :: l) : ∃ y ∈ x :: uniquedFrom rel x l, rel y z = true := by
  induction l generalizing x with
  | nil =>
    obtain rfl := List.mem_singleton.mp hz
    exact ⟨z, List.mem_cons_self, hrel z⟩
  | cons w l ih =>
    cases hxw : rel x w with
    | true =>
      rw [uniquedFrom_related hxw]
      obtain rfl | rfl | hz := List.mem_cons.mp hz |>.imp_right List.mem_cons.mp
      · exact ⟨z, List.mem_cons_self, hrel z⟩
      · exact ⟨x, List.mem_cons_self, hxw⟩
      · exact ih (List.mem_cons_of_mem x hz)
    | false =>
      rw [uniquedFrom_unrelated hxw]
      obtain rfl | hz := List.mem_cons.mp hz
      · exact ⟨z, List.mem_cons_self, hrel z⟩
      · obtain ⟨y, hy, hyz⟩ := ih hz
        exact ⟨y, List.mem_cons_of_mem x hy, hyz⟩

theorem exists_uniqued {rel : α → α → Bool} (hrel : ∀ x, rel x x = true) {l : List α} {z : α}
    (hz : z ∈ l) : ∃ y ∈ uniqued rel l, rel y z = true := by
  cases l with
  | nil => cases hz
  | cons x l =>
    rw [uniqued_cons]
    exact exists_uniquedFrom hrel hz

/-- A sorted list without neighbours of one class is strictly increasing. -/
theorem increasing_uniqued {lt : α → α → Bool} (h : StrictWeakOrder lt) {l : List α}
    (hl : Sorted lt l) : (uniqued (sameClass lt) l).Pairwise fun a b => lt a b = true := by
  have hsorted : Sorted lt (uniqued (sameClass lt) l) := hl.sublist (List.destutter_sublist _ l)
  have hchain : (uniqued (sameClass lt) l).IsChain (Unrelated (sameClass lt)) :=
    List.isChain_destutter _ l
  have htrans : IsTrans α fun a b => lt a b = true := ⟨h.trans⟩
  rw [← List.isChain_iff_pairwise, List.isChain_iff_getElem]
  intro i hi
  have hunrelated := List.isChain_iff_getElem.mp hchain i hi
  have hnot := List.pairwise_iff_getElem.mp hsorted i (i + 1) (by omega) hi (Nat.lt_succ_self i)
  simpa [Unrelated, sameClass, hnot] using hunrelated

/-- `sort | unique` leaves one element of each class, in increasing order. -/
theorem sort_unique {κ : Type} (s : Setting α) {pred : κ → κ → Bool} (h : StrictWeakOrder pred)
    (proj : α → κ) (c : BaseRange α) :
    ∃ l, pipe s [.sort pred proj, .unique (sameClass pred) proj] c =
        .ok { c with list := l } ∧
      l.Pairwise (fun a b => pred (proj a) (proj b) = true) ∧ (∀ y ∈ l, y ∈ c.list) ∧
      ∀ x ∈ c.list, ∃ y ∈ l, Equivalent pred (proj y) (proj x) := by
  have horder := h.projected proj
  obtain ⟨l, hrun, m, ⟨hperm, hsorted⟩, r, hr, rfl⟩ :=
    pipe_run s [.sort pred proj, .unique (sameClass pred) proj] c
      ⟨h, fun _ _ => ⟨trivial, fun _ _ => trivial⟩⟩
  have hclass : projected (sameClass pred) proj = sameClass (projected pred proj) := rfl
  obtain rfl : l = uniqued (sameClass (projected pred proj)) m := hr
  refine ⟨_, hrun, increasing_uniqued horder hsorted, fun y hy => ?_, fun x hx => ?_⟩
  · exact hperm.mem_iff.mpr ((List.destutter_sublist _ m).mem hy)
  · obtain ⟨y, hy, hyx⟩ := exists_uniqued (isEquivalence_sameClass horder).refl
      (hperm.mem_iff.mp hx)
    exact ⟨y, hy, sameClass_iff.mp hyx⟩

theorem sort_unique_plain :
    ∃ l, pipe plainSetting [.sort (· < ·) (· % 10), .unique (sameClass (· < ·)) (· % 10)]
        ⟨[31, 12, 41, 12, 19], .ofArray, false, false⟩ = .ok ⟨l, .ofArray, false, false⟩ ∧
      l.Pairwise (fun a b => decide (a % 10 < b % 10) = true) ∧
      (∀ y ∈ l, y ∈ [31, 12, 41, 12, 19]) ∧
      ∀ x ∈ [31, 12, 41, 12, 19], ∃ y ∈ l, Equivalent (· < ·) (y % 10) (x % 10) :=
  sort_unique plainSetting (.of_linearOrder Nat) (· % 10)
    ⟨[31, 12, 41, 12, 19], .ofArray, false, false⟩

end EARanges.Action
