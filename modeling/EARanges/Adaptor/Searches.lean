import EARanges.Adaptor.AdjacentFilter
import EARanges.Adaptor.Folds
import EARanges.Support.Neighbours

/-!
# Searches in any range

algorithm/find_if.hpp, algorithm/all_of.hpp, algorithm/any_of.hpp, algorithm/none_of.hpp,
algorithm/is_partitioned.hpp, algorithm/adjacent_find.hpp, algorithm/is_sorted_until.hpp and
algorithm/is_sorted.hpp. But for the last two, the loops are in EASTL/algorithm.h.
-/
namespace EARanges.Adaptor
open EARanges.Support EARanges.View

variable {α β γ : Type}

section
variable (R : RangeModel α) (fuel : Nat)

def findIf (pred : β → Bool) (proj : α → β) (first : R.Iter) (last : R.Sent) :
    Effect R.State R.Iter :=
  skipWhile R fuel (testAt R fun x => !pred (proj x)) last first

/-- `for(; first != last; ++first) if(stop(*first)) return true; return false;`. -/
def anyLoop (stop : α → Bool) (last : R.Sent) : Nat → R.Iter → Effect R.State Bool
  | 0, _ => .ofExec (.error .fuel)
  | fuel + 1, first => do
    if ← R.reached first last then pure false
    else
      let x ← R.read first
      if stop x then pure true
      else
        let first ← R.next first
        anyLoop stop last fuel first

def anyOf (pred : β → Bool) (proj : α → β) : Effect R.State Bool :=
  withEnds R fun first last => anyLoop R (fun x => pred (proj x)) last fuel first

def allOf (pred : β → Bool) (proj : α → β) : Effect R.State Bool :=
  withEnds R fun first last => do
    let b ← anyLoop R (fun x => !pred (proj x)) last fuel first
    pure !b

def noneOf (pred : β → Bool) (proj : α → β) : Effect R.State Bool :=
  withEnds R fun first last => do
    let b ← anyLoop R (fun x => pred (proj x)) last fuel first
    pure !b

/-- `for(; first != last; ++first) if(!pred(*first)) { ++first; break; }`. -/
def pastFirstNot (pred : α → Bool) (last : R.Sent) : Nat → R.Iter → Effect R.State R.Iter
  | 0, _ => .ofExec (.error .fuel)
  | fuel + 1, first => do
    if ← R.reached first last then pure first
    else
      let x ← R.read first
      if pred x then
        let first ← R.next first
        pastFirstNot pred last fuel first
      else R.next first

def isPartitioned (pred : β → Bool) (proj : α → β) : Effect R.State Bool :=
  withEnds R fun first last => do
    let first ← pastFirstNot R (fun x => pred (proj x)) last fuel first
    let b ← anyLoop R (fun x => pred (proj x)) last fuel first
    pure !b

/-- `for(; ++inext != last; first = inext) if(pred(*first, *inext)) return first; return inext;`. -/
def adjacentFindLoop (pred : α → α → Bool) (last : R.Sent) : Nat → R.Iter → Effect R.State R.Iter
  | 0, _ => .ofExec (.error .fuel)
  | fuel + 1, first => do
    let inext ← R.next first
    if ← R.reached inext last then pure inext
    else if ← related R pred first inext then pure first
    else adjacentFindLoop pred last fuel inext

def adjacentFind (pred : β → β → Bool) (proj : α → β) (first : R.Iter) (last : R.Sent) :
    Effect R.State R.Iter := do
  if ← R.reached first last then pure first
  else adjacentFindLoop R (fun x y => pred (proj x) (proj y)) last fuel first

/-- The loop is that of `adjacent_filter_view`, with the comparison the other way. -/
def isSortedUntil (pred : β → β → Bool) (proj : α → β) (first : R.Iter) (last : R.Sent) :
    Effect R.State R.Iter := do
  if ← R.reached first last then pure first
  else adjacentNextLoop R (fun x y => pred (proj y) (proj x)) last fuel first

def isSorted (pred : β → β → Bool) (proj : α → β) : Effect R.State Bool :=
  withEnds R fun first last => do
    let it ← isSortedUntil R fuel pred proj first last
    R.reached it last

/-- `find(begin(rng), end(rng)) - begin(rng)`, as `distance` counts it. -/
def foundAt (find : R.Iter → R.Sent → Effect R.State R.Iter) : Effect R.State Int :=
  withEnds R fun first last => do
    let it ← find first last
    let rest ← iterDistance R fuel it last
    let n ← iterDistance R fuel first last
    pure (n - rest)

end

section
variable {R : RangeModel α} {xs : List α} {Inv : Phase → R.State → Prop}
  {At : Nat → R.Iter → Prop} {AtEnd : R.Sent → Prop} {fuel : Nat}

theorem foundAt_yields (h : Presents R xs Inv At AtEnd) (hfuel : xs.length < fuel)
    {find : R.Iter → R.Sent → Effect R.State R.Iter} {t : Nat}
    (hfind : ∀ c e, At 0 c → AtEnd e → Gives (Inv .live) (find c e) (At t)) :
    Yields (Inv .idle) (foundAt R fuel find) (Inv .live) (· = (t : Int)) := by
  apply withEnds_yields h
  intro c e hc he
  apply (hfind c e hc he).bind
  intro it hit
  apply (iterDistance_gives h hit he hfuel).bind
  rintro rest rfl
  apply (iterDistance_gives h hc he hfuel).bind
  rintro n rfl
  exact .pure (by omega)

theorem findIf_gives (h : Presents R xs Inv At AtEnd) (hfuel : xs.length < fuel)
    (pred : β → Bool) (proj : α → β) {first : R.Iter} {last : R.Sent} (hfirst : At 0 first)
    (hlast : AtEnd last) :
    Gives (Inv .live) (findIf R fuel pred proj first last)
      (At (xs.takeWhile fun x => !pred (proj x)).length) :=
  skipWhile_gives h (fun _ _ => testAt_unremoved h) hfirst hlast hfuel (firstFrom_takeWhile _ _)

theorem anyLoop_gives (h : Presents R xs Inv At AtEnd) (stop : α → Bool) {last : R.Sent}
    (hlast : AtEnd last) {fuel i : Nat} {first : R.Iter} (hfirst : At i first)
    (hfuel : xs.length - i < fuel) :
    Gives (Inv .live) (anyLoop R stop last fuel first) (· = (xs.drop i).any stop) := by
  induction fuel generalizing i first with
  | zero => omega
  | succ fuel ih =>
    apply h.branch hfirst hlast
    · intro hend
      rw [List.drop_of_length_le (Nat.le_of_eq hend.symm)]
      exact .pure rfl
    · intro hlt
      rw [List.drop_eq_getElem_cons hlt, List.any_cons]
      apply (h.read hfirst (List.getElem?_eq_getElem hlt)).bind
      rintro x rfl
      cases hstop : stop xs[i] with
      | true => exact .pure rfl
      | false =>
        apply (h.next hfirst hlt).bind
        intro c hc
        exact ih hc (by omega)

/-- `all_of`, `any_of` and `none_of`. -/
theorem anyLoop_yields (h : Presents R xs Inv At AtEnd) (hfuel : xs.length < fuel)
    (stop : α → Bool) (answer : Bool → γ) :
    Yields (Inv .idle)
      (withEnds R fun first last => do
        let b ← anyLoop R stop last fuel first
        pure (answer b))
      (Inv .live) (· = answer (xs.any stop)) := by
  apply withEnds_yields h
  intro c e hc he
  apply (anyLoop_gives h stop he hc hfuel).bind
  rintro b rfl
  exact .pure rfl

theorem pastFirstNot_gives (h : Presents R xs Inv At AtEnd) (pred : α → Bool) {last : R.Sent}
    (hlast : AtEnd last) {fuel i : Nat} {first : R.Iter} (hfirst : At i first)
    (hfuel : xs.length - i < fuel) :
    Gives (Inv .live) (pastFirstNot R pred last fuel first) fun c =>
      ∃ j, At j c ∧ xs.drop j = ((xs.drop i).dropWhile pred).tail := by
  induction fuel generalizing i first with
  | zero => omega
  | succ fuel ih =>
    apply h.branch hfirst hlast
    · intro hend
      refine .pure ⟨i, hfirst, ?_⟩
      rw [List.drop_of_length_le (Nat.le_of_eq hend.symm)]
      rfl
    · intro hlt
      rw [List.drop_eq_getElem_cons hlt]
      apply (h.read hfirst (List.getElem?_eq_getElem hlt)).bind
      rintro x rfl
      by_cases hpred : pred xs[i]
      · rw [if_pos hpred, List.dropWhile_cons_of_pos hpred]
        apply (h.next hfirst hlt).bind
        intro c hc
        exact ih hc (by omega)
      · rw [if_neg hpred, List.dropWhile_cons_of_neg hpred]
        exact (h.next hfirst hlt).mono fun c hc => ⟨i + 1, hc, rfl⟩

/-- What is behind the first element that fails must fail too. -/
theorem isPartitioned_yields (h : Presents R xs Inv At AtEnd) (hfuel : xs.length < fuel)
    (pred : β → Bool) (proj : α → β) :
    Yields (Inv .idle) (isPartitioned R fuel pred proj) (Inv .live)
      (· = (xs.dropWhile fun x => pred (proj x)).all fun x => !pred (proj x)) := by
  have hhead : ∀ l : List α,
      ((l.dropWhile fun x => pred (proj x)).tail.any fun x => pred (proj x)) =
      !((l.dropWhile fun x => pred (proj x)).all fun x => !pred (proj x)) := by
    intro l
    have hrest := List.head?_dropWhile_not (fun x => pred (proj x)) l
    cases hd : l.dropWhile fun x => pred (proj x) with
    | nil => rfl
    | cons x rest =>
      rw [hd] at hrest
      simp_all [List.any_eq_not_all_not]
  apply withEnds_yields h
  intro c e hc he
  apply (pastFirstNot_gives h _ he hc hfuel).bind
  rintro c' ⟨j, hc', hrest⟩
  apply (anyLoop_gives h _ he hc' (Nat.lt_of_le_of_lt (Nat.sub_le _ _) hfuel)).bind
  rintro b rfl
  refine .pure ?_
  rw [hrest, List.drop_zero, hhead, Bool.not_not]

/-- A position is kept by `adjacent_filter` if its left neighbour is related to it. -/
theorem keptRelated_succ_iff {pred : α → α → Bool} {k : Nat} :
    keptRelated xs pred (k + 1) = true ↔ DropsAt pred xs k := by
  constructor
  · intro hkept
    dsimp only [keptRelated, AdjacentFilterView.keeps] at hkept
    split at hkept
    next x y hx hy => exact ⟨x, y, hx, hy, hkept⟩
    next => cases hkept
  · rintro ⟨x, y, hx, hy, hpred⟩
    have hkeeps := AdjacentFilterView.keeps_succ (v := ⟨xs, pred⟩) hx hy
    exact hkeeps.trans hpred

/-- The first of two neighbours, of which `u` is the second; the end if there is none. -/
def firstOfPair (n u : Nat) : Nat := if u = n then n else u - 1

theorem adjacentFindLoop_gives (h : Presents R xs Inv At AtEnd) {pred : α → α → Bool}
    {last : R.Sent} (hlast : AtEnd last) {fuel s u : Nat} {first : R.Iter} (hfirst : At s first)
    (hs : s < xs.length) (hu : FirstFrom (keptRelated xs pred) xs (s + 1) u)
    (hfuel : xs.length ≤ s + fuel) :
    Gives (Inv .live) (adjacentFindLoop R pred last fuel first)
      (At (firstOfPair xs.length u)) := by
  induction fuel generalizing s first with
  | zero => omega
  | succ fuel ih =>
    apply (h.next hfirst hs).bind
    intro c hc
    have hle := hu.le
    have hlength := hu.le_length
    apply h.branch hc hlast
    · intro hend
      rw [firstOfPair, if_pos (by omega), ← hend]
      exact .pure hc
    · intro hlt
      apply (related_gives h hfirst hc hlt).bind
      rintro b rfl
      by_cases heq : u = s + 1
      · subst heq
        rw [(hu.stands.resolve_left (Nat.ne_of_lt hlt)).2, if_pos rfl, firstOfPair,
          if_neg (Nat.ne_of_lt hlt)]
        exact .pure hfirst
      · rw [hu.between (s + 1) (Nat.le_refl _) (by omega), if_neg Bool.false_ne_true]
        refine ih hc hlt ⟨by omega, hu.stands, fun k hk hku => ?_⟩ (by omega)
        exact hu.between k (Nat.le_of_succ_le hk) hku

/-- What `adjacent_find` finds. -/
def adjacentAt (pred : α → α → Bool) (xs : List α) : Nat :=
  if firstPair pred xs + 1 < xs.length then firstPair pred xs else xs.length

/-- What `is_sorted_until` finds. -/
def sortedUntil (pred : α → α → Bool) (xs : List α) : Nat :=
  min (firstPair (fun x y => pred y x) xs + 1) xs.length

theorem not_dropsAt_of_lt_adjacentAt {pred : α → α → Bool} {k : Nat} (h : k < adjacentAt pred xs) :
    ¬ DropsAt pred xs k := by
  unfold adjacentAt at h
  split at h
  · exact not_dropsAt_of_lt_firstPair h
  next hend =>
    rintro ⟨x, y, hx, hy, htest⟩
    have hlt := (List.getElem?_eq_some_iff.mp hy).1
    exact not_dropsAt_of_lt_firstPair (by omega) ⟨x, y, hx, hy, htest⟩

theorem adjacentAt_stands {pred : α → α → Bool} :
    adjacentAt pred xs = xs.length ∨ DropsAt pred xs (adjacentAt pred xs) := by
  unfold adjacentAt
  split
  next hlt => exact .inr (dropsAt_firstPair hlt)
  next => exact .inl rfl

/-- A loop for the first kept position behind the first one finds the second of the first pair. -/
theorem firstFrom_firstPair (pred : α → α → Bool) (xs : List α) :
    FirstFrom (keptRelated xs pred) xs (min 1 xs.length)
      (min (firstPair pred xs + 1) xs.length) where
  le := by omega
  stands := by
    by_cases hlt : firstPair pred xs + 1 < xs.length
    · rw [Nat.min_eq_left (Nat.le_of_lt hlt)]
      exact .inr ⟨hlt, keptRelated_succ_iff.mpr (dropsAt_firstPair hlt)⟩
    · exact .inl (Nat.min_eq_right (Nat.not_lt.mp hlt))
  between k hk hlt := by
    obtain ⟨m, rfl⟩ : ∃ m, k = m + 1 := ⟨k - 1, by omega⟩
    have hnone : ¬ DropsAt pred xs m := not_dropsAt_of_lt_firstPair (by omega)
    exact eq_false_of_ne_true fun hkeep => hnone (keptRelated_succ_iff.mp hkeep)

theorem adjacentFind_gives (h : Presents R xs Inv At AtEnd) (hfuel : xs.length < fuel)
    (pred : β → β → Bool) (proj : α → β) {first : R.Iter} {last : R.Sent} (hfirst : At 0 first)
    (hlast : AtEnd last) :
    Gives (Inv .live) (adjacentFind R fuel pred proj first last)
      (At (adjacentAt (fun x y => pred (proj x) (proj y)) xs)) := by
  have hu := firstFrom_firstPair (fun x y => pred (proj x) (proj y)) xs
  have hplace : firstOfPair xs.length
      (min (firstPair (fun x y => pred (proj x) (proj y)) xs + 1) xs.length) =
      adjacentAt (fun x y => pred (proj x) (proj y)) xs := by
    unfold firstOfPair adjacentAt
    split <;> split <;> omega
  rw [← hplace]
  apply h.branch hfirst hlast
  · intro hempty
    rw [firstOfPair, if_pos (by omega), ← hempty]
    exact .pure hfirst
  · intro hpos
    rw [Nat.min_eq_left hpos] at hu
    exact adjacentFindLoop_gives h hlast hfirst hpos hu (by omega)

theorem isSortedUntil_gives (h : Presents R xs Inv At AtEnd) (hfuel : xs.length < fuel)
    (pred : β → β → Bool) (proj : α → β) {first : R.Iter} {last : R.Sent} (hfirst : At 0 first)
    (hlast : AtEnd last) :
    Gives (Inv .live) (isSortedUntil R fuel pred proj first last)
      (At (sortedUntil (projected pred proj) xs)) := by
  have hu := firstFrom_firstPair (fun x y => pred (proj y) (proj x)) xs
  apply h.branch hfirst hlast
  · intro hempty
    rw [show sortedUntil (projected pred proj) xs = 0 by unfold sortedUntil; omega]
    exact .pure hfirst
  · intro hpos
    rw [Nat.min_eq_left hpos] at hu
    exact adjacentNextLoop_gives h hlast hfirst hpos hu (by omega)

/-- What is before the position found is sorted, and no more than that. -/
theorem sorted_until {lt : α → α → Bool} (horder : StrictWeakOrder lt) (xs : List α) :
    Sorted lt (xs.take (sortedUntil lt xs)) ∧
      (sortedUntil lt xs = xs.length ∨ ¬ Sorted lt (xs.take (sortedUntil lt xs + 1))) := by
  rw [sorted_iff_not_dropsAt horder, sorted_iff_not_dropsAt horder]
  constructor
  · intro k hdrop
    obtain ⟨hlt, hdrop⟩ := dropsAt_take.mp hdrop
    exact not_dropsAt_of_lt_firstPair (by unfold sortedUntil at hlt; omega) hdrop
  · by_cases hlt : firstPair (fun x y => lt y x) xs + 1 < xs.length
    · refine .inr fun hnone => hnone _ (dropsAt_take.mpr ⟨?_, dropsAt_firstPair hlt⟩)
      rw [sortedUntil, Nat.min_eq_left (Nat.le_of_lt hlt)]
      exact Nat.lt_succ_self _
    · exact .inl (Nat.min_eq_right (Nat.not_lt.mp hlt))

/-- No element is less than the one before it. -/
def inOrder (lt : α → α → Bool) (xs : List α) : Bool := (xs.zip xs.tail).all fun p => !lt p.2 p.1

theorem inOrder_iff {lt : α → α → Bool} (horder : StrictWeakOrder lt) (xs : List α) :
    inOrder lt xs = true ↔ Sorted lt xs := by
  obtain ⟨hsorted, hmore⟩ := sorted_until horder xs
  have hend : inOrder lt xs = true ↔ sortedUntil lt xs = xs.length := by
    rw [inOrder, ← length_le_firstPair_iff fun x y => lt y x, sortedUntil]
    omega
  rw [hend]
  constructor
  · intro hall
    rwa [hall, List.take_length] at hsorted
  · intro hall
    exact hmore.resolve_right fun hnone => hnone (List.Pairwise.take hall)

theorem isSorted_yields (h : Presents R xs Inv At AtEnd) (hfuel : xs.length < fuel)
    (pred : β → β → Bool) (proj : α → β) :
    Yields (Inv .idle) (isSorted R fuel pred proj) (Inv .live)
      (· = inOrder (projected pred proj) xs) := by
  apply withEnds_yields h
  intro c e hc he
  apply (isSortedUntil_gives h hfuel pred proj hc he).bind
  intro it hit
  apply (h.reached hit he).mono
  rintro b rfl
  rw [Bool.eq_iff_iff, decide_eq_true_iff, inOrder,
    ← length_le_firstPair_iff fun x y => projected pred proj y x, sortedUntil]
  omega

end

end EARanges.Adaptor
