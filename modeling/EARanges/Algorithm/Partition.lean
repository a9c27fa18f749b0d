import EARanges.Algorithm.FindIf
import EARanges.Iterator.RangeTraits
import EARanges.Support.WhileTrue

/-!
# `partition`

algorithm/partition.hpp. The forward implementation exchanges the first element that is out of
place with the next one that satisfies the predicate; the bidirectional one works from both
ends. An inner loop that leaves the function gives `none`.
-/
namespace EARanges.Algorithm
open EARanges.Support EARanges.Iterator

variable {α κ : Type}

section
variable (pred : κ → Bool) (proj : α → κ)

/-- `if(first == last) return first; if(!pred(*first)) break; ++first;`, repeated. -/
def skipSatisfying (l : List α) (last : Nat) : Nat → Nat → Exec (Option Nat)
  | 0, _ => .error .fuel
  | fuel + 1, first =>
    if first = last then .ok none
    else do
      let x ← deref l first
      if !pred (proj x) then .ok (some first)
      else
        let first ← incr l first
        skipSatisfying l last fuel first

/-- `for(I p = first; ++p != last;)`. -/
def partitionForwardLoop : Nat → List α → Nat → Nat → Exec (List α × Nat)
  | 0, _, _, _ => .error .fuel
  | fuel + 1, l, first, p => do
    let p ← incr l p
    if p = l.length then .ok (l, first)
    else
      let x ← deref l p
      if pred (proj x) then
        let l ← iterSwap l first p
        let first ← incr l first
        partitionForwardLoop fuel l first p
      else partitionForwardLoop fuel l first p

def partitionForward (l : List α) : Exec (List α × Nat) := do
  match ← skipSatisfying pred proj l l.length (l.length + 1) 0 with
  | none => .ok (l, l.length)
  | some first => partitionForwardLoop pred proj l.length l first first

/-- `do { if(first == --last) return first; } while(!pred(*last))`. -/
def skipFailing (l : List α) (first : Nat) : Nat → Nat → Exec (Option Nat)
  | 0, _ => .error .fuel
  | fuel + 1, last => do
    let last ← stepBack last
    if first = last then .ok none
    else
      let x ← deref l last
      if !pred (proj x) then skipFailing l first fuel last else .ok (some last)

/-- One round of the outer loop, on the range, `first` and `last`. -/
def partitionRound (s : List α × Nat × Nat) :
    Exec (Iteration (List α × Nat × Nat) (List α × Nat)) := do
  let (l, first, last) := s
  match ← skipSatisfying pred proj l last (l.length + 1) first with
  | none => .ok (.done (l, last))
  | some first =>
    match ← skipFailing pred proj l first l.length last with
    | none => .ok (.done (l, first))
    | some last =>
      let l ← iterSwap l first last
      let first ← incr l first
      .ok (.again (l, first, last))

def partitionBidirectional (t : Iterator.RangeTraits) (l : List α) : Exec (List α × Nat) := do
  let last ← advanceToEnd t l.length 0
  whileTrue (partitionRound pred proj) (l.length + 1) (l, 0, last)

/-- The implementation is chosen by the iterator's category. -/
def partition (t : Iterator.RangeTraits) (l : List α) : Exec (List α × Nat) :=
  if t.bidirectional then partitionBidirectional pred proj t l else partitionForward pred proj l

end

variable {pred : κ → Bool} {proj : α → κ}

/-! ## The inner loops -/

/-- The inner loops are searches that tell whether they have met their bound. -/
theorem skipSatisfying_eq (l : List α) (last fuel first : Nat) :
    skipSatisfying pred proj l last fuel first = (do
      let it ← findIf (fun k => !pred k) proj l last fuel first
      .ok (if it = last then none else some it)) := by
  induction fuel generalizing first with
  | zero => rfl
  | succ fuel ih =>
    rw [skipSatisfying, findIf]
    split
    next heq => rw [exec_bind_ok, if_pos heq]
    next hne =>
      cases deref l first with
      | error e => rfl
      | ok x =>
        simp only [exec_bind_ok]
        cases hx : pred (proj x) with
        | true =>
          cases incr l first with
          | error e => rfl
          | ok next => exact ih next
        | false =>
          show Except.ok (some first) = Except.ok (if first = last then none else some first)
          rw [if_neg hne]

theorem skipFailing_eq (l : List α) (first fuel last : Nat) :
    skipFailing pred proj l first fuel last = (do
      let base ← findIfNotReverse (fun k => !pred k) proj l (first + 1) fuel last
      .ok (if base = first + 1 then none else some (base - 1))) := by
  induction fuel generalizing last with
  | zero => rfl
  | succ fuel ih =>
    rw [skipFailing, findIfNotReverse]
    cases last with
    | zero => rw [if_neg (Nat.succ_ne_zero first).symm]; rfl
    | succ last =>
      rw [stepBack_succ, exec_bind_ok]
      by_cases heq : first = last
      · rw [if_pos heq, if_pos (by rw [heq]), exec_bind_ok, if_pos (by rw [heq])]
      · have hne : ¬ last + 1 = first + 1 := fun h => heq (Nat.succ.inj h).symm
        rw [if_neg heq, if_neg hne, exec_bind_ok]
        cases deref l last with
        | error e => rfl
        | ok x =>
          simp only [exec_bind_ok]
          cases hx : pred (proj x) with
          | true =>
            show Except.ok (some last) =
              Except.ok (if last + 1 = first + 1 then none else some (last + 1 - 1))
            rw [if_neg hne, Nat.add_sub_cancel]
          | false => exact ih last

theorem skipSatisfying_none {a b c : List α} (last fuel : Nat)
    (hb : ∀ x ∈ b, pred (proj x) = true) (hlast : last = a.length + b.length)
    (hfuel : b.length < fuel) :
    skipSatisfying pred proj (a ++ (b ++ c)) last fuel a.length = .ok none := by
  rw [skipSatisfying_eq, hlast, findIf_none fuel (fun x hx => by simp [hb x hx]) hfuel,
    exec_bind_ok, if_pos rfl]

theorem skipSatisfying_some {a b c : List α} {y : α} (last fuel : Nat)
    (hb : ∀ x ∈ b, pred (proj x) = true) (hy : pred (proj y) = false)
    (hlast : a.length + b.length < last) (hfuel : b.length < fuel) :
    skipSatisfying pred proj (a ++ (b ++ y :: c)) last fuel a.length =
      .ok (some (a.length + b.length)) := by
  rw [skipSatisfying_eq, findIf_some last fuel (fun x hx => by simp [hb x hx]) (by simp [hy]) hlast
    hfuel, exec_bind_ok, if_neg (Nat.ne_of_lt hlast)]

theorem skipFailing_none {a b c : List α} {y : α} (fuel : Nat)
    (hb : ∀ x ∈ b, pred (proj x) = false) (hfuel : b.length < fuel) :
    skipFailing pred proj (a ++ y :: (b ++ c)) a.length fuel (a.length + 1 + b.length) =
      .ok none := by
  have hsearch : findIfNotReverse (fun k => !pred k) proj (a ++ [y] ++ (b ++ c)) (a ++ [y]).length
      fuel ((a ++ [y]).length + b.length) = .ok (a ++ [y]).length :=
    findIfNotReverse_none fuel (fun x hx => by simp [hb x hx]) hfuel
  simp only [List.length_append, List.length_singleton, List.append_assoc,
    List.singleton_append] at hsearch
  rw [skipFailing_eq, hsearch, exec_bind_ok, if_pos rfl]

theorem skipFailing_some {a b c : List α} {z : α} (first fuel : Nat)
    (hz : pred (proj z) = true) (hb : ∀ x ∈ b, pred (proj x) = false) (hfirst : first < a.length)
    (hfuel : b.length < fuel) :
    skipFailing pred proj (a ++ z :: (b ++ c)) first fuel (a.length + 1 + b.length) =
      .ok (some a.length) := by
  have hne : ¬ a.length + 1 = first + 1 := by omega
  rw [skipFailing_eq, findIfNotReverse_some _ fuel (by simp [hz]) (fun x hx => by simp [hb x hx])
    (Nat.succ_le_of_lt hfirst) hfuel, exec_bind_ok, if_neg hne, Nat.add_sub_cancel]

/-! ## The two implementations -/

/-- `r` is `l` rearranged, the first `n` elements satisfying the predicate and no others. -/
structure Partitioned (pred : κ → Bool) (proj : α → κ) (l r : List α) (n : Nat) : Prop where
  perm : r.Perm l
  before : ∀ x ∈ r.take n, pred (proj x) = true
  behind : ∀ x ∈ r.drop n, pred (proj x) = false
  count : n = l.countP fun x => pred (proj x)

theorem Partitioned.of_append {l a b : List α} (hperm : (a ++ b).Perm l)
    (ha : ∀ x ∈ a, pred (proj x) = true) (hb : ∀ x ∈ b, pred (proj x) = false) :
    Partitioned pred proj l (a ++ b) a.length := by
  refine ⟨hperm, by rwa [List.take_left], by rwa [List.drop_left], ?_⟩
  rw [← hperm.countP_eq, List.countP_append, List.countP_eq_length.mpr ha,
    List.countP_eq_zero.mpr fun x hx => by simp [hb x hx]]
  rfl

/-- Both sides are determined up to their order. -/
theorem Partitioned.sides {l r : List α} {n : Nat} (h : Partitioned pred proj l r n) :
    (r.take n).Perm (l.filter fun x => pred (proj x)) ∧
      (r.drop n).Perm (l.filter fun x => !pred (proj x)) := by
  have hcut := List.take_append_drop n r
  constructor
  · have hperm := h.perm.filter fun x => pred (proj x)
    rw [← hcut, List.filter_append, List.filter_eq_self.mpr h.before,
      List.filter_eq_nil_iff.mpr fun x hx => by simp [h.behind x hx], List.append_nil] at hperm
    exact hperm
  · have hperm := h.perm.filter fun x => !pred (proj x)
    rw [← hcut, List.filter_append, List.filter_eq_nil_iff.mpr fun x hx => by simp [h.before x hx],
      List.filter_eq_self.mpr fun x hx => by simp [h.behind x hx], List.nil_append] at hperm
    exact hperm

theorem perm_exchange (a : List α) (x : α) (m : List α) (y : α) (b : List α) :
    (a ++ y :: m ++ x :: b).Perm (a ++ x :: m ++ y :: b) := by
  rw [List.append_assoc, List.append_assoc]
  refine List.Perm.append_left a ?_
  have hout : (y :: (m ++ x :: b)).Perm (y :: x :: (m ++ b)) := List.perm_middle.cons y
  have hin : (x :: y :: (m ++ b)).Perm (x :: (m ++ y :: b)) := List.perm_middle.symm.cons x
  exact hout.trans ((List.Perm.swap x y (m ++ b)).trans hin)

theorem partitionForwardLoop_turn {a f c : List α} {x : α} {p : Nat} (fuel : Nat)
    (hp : p + 1 = a.length + f.length) :
    partitionForwardLoop pred proj (fuel + 1) (a ++ (f ++ x :: c)) a.length p =
      if pred (proj x) then do
        let l ← iterSwap (a ++ (f ++ x :: c)) a.length (p + 1)
        let first ← incr l a.length
        partitionForwardLoop pred proj fuel l first (p + 1)
      else partitionForwardLoop pred proj fuel (a ++ (f ++ x :: c)) a.length (p + 1) := by
  have hincr : incr (a ++ (f ++ x :: c)) p = .ok (p + 1) := incr_ok (by simp; omega)
  have hnot : p + 1 ≠ (a ++ (f ++ x :: c)).length := by
    simp only [List.length_append, List.length_cons]
    omega
  have hread : deref (a ++ (f ++ x :: c)) (p + 1) = .ok x := by
    rw [hp, ← List.append_assoc, ← List.length_append]
    exact deref_append (a ++ f) x c
  rw [partitionForwardLoop, hincr, exec_bind_ok, if_neg hnot, hread, exec_bind_ok]

/-- The first element that fails goes where `x` was. -/
theorem partitionForwardLoop_exchange {a f c : List α} {x y : α} {p : Nat} (fuel : Nat)
    (hp : p + 1 = a.length + (y :: f).length) (hx : pred (proj x) = true) :
    partitionForwardLoop pred proj (fuel + 1) (a ++ (y :: f ++ x :: c)) a.length p =
      partitionForwardLoop pred proj fuel (a ++ [x] ++ (f ++ [y] ++ c)) (a ++ [x]).length
        (p + 1) := by
  have hlist : a ++ x :: f ++ y :: c = a ++ [x] ++ (f ++ [y] ++ c) := by simp
  have hp' : p + 1 = a.length + 1 + f.length := by
    rw [List.length_cons] at hp
    omega
  have hswap : iterSwap (a ++ (y :: f ++ x :: c)) a.length (p + 1) =
      .ok (a ++ [x] ++ (f ++ [y] ++ c)) := by
    rw [hp', ← hlist, ← List.append_assoc]
    exact iterSwap_append a y f x c
  have hincr : incr (a ++ [x] ++ (f ++ [y] ++ c)) a.length = .ok (a ++ [x]).length := by
    rw [List.length_append, List.length_singleton]
    exact incr_ok (by simp)
  rw [partitionForwardLoop_turn fuel hp, if_pos hx, hswap, exec_bind_ok, hincr, exec_bind_ok]

/-- What fails the predicate lies between `first` and `p`, the last iterator looked at. -/
theorem partitionForwardLoop_spec {l a f c : List α} {p : Nat} (fuel : Nat)
    (hperm : (a ++ (f ++ c)).Perm l)
    (ha : ∀ x ∈ a, pred (proj x) = true) (hf : ∀ x ∈ f, pred (proj x) = false) (hne : f ≠ [])
    (hp : p + 1 = a.length + f.length) (hfuel : c.length < fuel) :
    ∃ r n, partitionForwardLoop pred proj fuel (a ++ (f ++ c)) a.length p = .ok (r, n) ∧
      Partitioned pred proj l r n := by
  obtain ⟨fuel, rfl⟩ : ∃ n, fuel = n + 1 := ⟨fuel - 1, by omega⟩
  induction c generalizing a f p fuel with
  | nil =>
    have hincr : incr (a ++ (f ++ [])) p = .ok (p + 1) := incr_ok (by simp; omega)
    have hend : p + 1 = (a ++ (f ++ [])).length := by simpa using hp
    refine ⟨_, _, ?_, .of_append hperm ha (by simpa using hf)⟩
    rw [partitionForwardLoop, hincr, exec_bind_ok, if_pos hend]
  | cons x c ih =>
    obtain ⟨fuel, rfl⟩ : ∃ n, fuel = n + 1 := ⟨fuel - 1, by rw [List.length_cons] at hfuel; omega⟩
    have hfuel := Nat.lt_of_succ_lt_succ hfuel
    cases hx : pred (proj x) with
    | true =>
      obtain ⟨y, f, rfl⟩ := List.exists_cons_of_ne_nil hne
      obtain ⟨hy, hf⟩ := List.forall_mem_cons.mp hf
      have hperm' : (a ++ [x] ++ (f ++ [y] ++ c)).Perm l := by
        have hswap := perm_exchange a y f x c
        simp only [List.append_assoc, List.cons_append, List.nil_append] at hperm hswap ⊢
        exact hswap.trans hperm
      rw [partitionForwardLoop_exchange _ hp hx]
      refine ih hperm' (List.forall_mem_append.mpr ⟨ha, by simpa using hx⟩)
        (List.forall_mem_append.mpr ⟨hf, by simpa using hy⟩) (by simp) ?_ fuel hfuel
      simp only [List.length_append, List.length_cons, List.length_nil] at hp ⊢
      omega
    | false =>
      have hlist : a ++ (f ++ x :: c) = a ++ (f ++ [x] ++ c) := by simp
      rw [partitionForwardLoop_turn _ hp, hx, if_neg Bool.false_ne_true]
      rw [hlist] at hperm ⊢
      refine ih hperm ha (List.forall_mem_append.mpr ⟨hf, by simpa using hx⟩) (by simp) ?_ fuel
        hfuel
      rw [List.length_append, List.length_singleton]
      omega

theorem partitionForward_spec (pred : κ → Bool) (proj : α → κ) (l : List α) :
    ∃ r n, partitionForward pred proj l = .ok (r, n) ∧ Partitioned pred proj l r n := by
  unfold partitionForward
  obtain hall | ⟨a, y, c, rfl, ha, hy⟩ := all_or_first (fun x => pred (proj x)) l
  · have hskip := skipSatisfying_none (a := []) (c := []) l.length (l.length + 1)
      hall (by simp) (by omega)
    rw [List.nil_append, List.append_nil] at hskip
    refine ⟨l, l.length, ?_, ?_⟩
    · rw [← List.length_nil, hskip]
      rfl
    · simpa using Partitioned.of_append (b := []) (by simp) hall (by simp)
  · have hskip := skipSatisfying_some (a := []) (c := c) (a ++ y :: c).length
      ((a ++ y :: c).length + 1) ha hy (by simp) (by rw [List.length_append]; omega)
    obtain ⟨r, n, hrun, h⟩ := partitionForwardLoop_spec (l := a ++ y :: c) (f := [y]) (c := c)
      (p := a.length) (a ++ y :: c).length (by simp) ha (by simpa using hy) (by simp)
      (by simp) (by rw [List.length_append, List.length_cons]; omega)
    refine ⟨r, n, ?_, h⟩
    simp only [List.nil_append, List.length_nil, Nat.zero_add] at hskip
    rw [hskip]
    exact hrun

/-! The three ways through a round. -/

/-- The scan from the left meets `last`. -/
theorem partitionRound_all {a m b : List α} (hm : ∀ x ∈ m, pred (proj x) = true) :
    partitionRound pred proj (a ++ (m ++ b), a.length, a.length + m.length) =
      .ok (.done (a ++ (m ++ b), a.length + m.length)) := by
  have hleft := skipSatisfying_none (a := a) (c := b) _ ((a ++ (m ++ b)).length + 1) hm rfl
    (by simp only [List.length_append]; omega)
  simp only [partitionRound, hleft, exec_bind_ok]

/-- The scan from the left stops at an element that fails. -/
theorem skipSatisfying_round {a k c b : List α} {y : α} (hk : ∀ x ∈ k, pred (proj x) = true)
    (hy : pred (proj y) = false) :
    skipSatisfying pred proj (a ++ (k ++ y :: (c ++ b))) (a.length + (k ++ y :: c).length)
      ((a ++ (k ++ y :: (c ++ b))).length + 1) a.length = .ok (some (a ++ k).length) := by
  have hskip := skipSatisfying_some (a := a) (c := c ++ b) (a.length + (k ++ y :: c).length)
    ((a ++ (k ++ y :: (c ++ b))).length + 1) hk hy (by simp)
    (by simp only [List.length_append]; omega)
  rw [hskip, List.length_append]

/-- The scan from the right meets `first`. -/
theorem partitionRound_none {a k c b : List α} {y : α} (hk : ∀ x ∈ k, pred (proj x) = true)
    (hy : pred (proj y) = false) (hc : ∀ x ∈ c, pred (proj x) = false) :
    partitionRound pred proj
        (a ++ (k ++ y :: (c ++ b)), a.length, a.length + (k ++ y :: c).length) =
      .ok (.done (a ++ (k ++ y :: (c ++ b)), (a ++ k).length)) := by
  have hright := skipFailing_none (a := a ++ k) (y := y) (c := b)
    (a ++ k ++ y :: (c ++ b)).length hc
    (by simp only [List.length_append, List.length_cons]; omega)
  have hlast : (a ++ k).length + 1 + c.length = a.length + (k ++ y :: c).length := by
    simp only [List.length_append, List.length_cons]
    omega
  rw [hlast, List.append_assoc] at hright
  simp only [partitionRound, skipSatisfying_round hk hy, exec_bind_ok, hright]

/-- The scans stop at two elements that change places. -/
theorem partitionRound_swap {a k c d b : List α} {y z : α} (hk : ∀ x ∈ k, pred (proj x) = true)
    (hy : pred (proj y) = false) (hz : pred (proj z) = true)
    (hd : ∀ x ∈ d, pred (proj x) = false) :
    partitionRound pred proj (a ++ (k ++ y :: (c ++ z :: d ++ b)), a.length,
        a.length + (k ++ y :: (c ++ z :: d)).length) =
      .ok (.again (a ++ k ++ [z] ++ (c ++ (y :: d ++ b)), (a ++ k ++ [z]).length,
        (a ++ k ++ [z]).length + c.length)) := by
  have hlist : a ++ (k ++ y :: (c ++ z :: d ++ b)) = a ++ k ++ y :: c ++ z :: (d ++ b) := by simp
  have hlist' : a ++ k ++ z :: c ++ y :: (d ++ b) = a ++ k ++ [z] ++ (c ++ (y :: d ++ b)) := by
    simp
  have hright := skipFailing_some (a := a ++ k ++ y :: c) (c := b) (a ++ k).length
    (a ++ k ++ y :: c ++ z :: (d ++ b)).length hz hd
    (by simp only [List.length_append, List.length_cons]; omega)
    (by simp only [List.length_append, List.length_cons]; omega)
  have hlast : (a ++ k ++ y :: c).length + 1 + d.length =
      a.length + (k ++ y :: (c ++ z :: d)).length := by
    simp only [List.length_append, List.length_cons]
    omega
  have hswap := iterSwap_append (a ++ k) y c z (d ++ b)
  have hpos : (a ++ k).length + 1 + c.length = (a ++ k ++ y :: c).length := by
    simp only [List.length_append, List.length_cons]
    omega
  have hincr : incr (a ++ k ++ [z] ++ (c ++ (y :: d ++ b))) (a ++ k).length =
      .ok ((a ++ k).length + 1) :=
    incr_ok (by simp)
  have hleft := skipSatisfying_round (a := a) (c := c ++ z :: d) (b := b) hk hy
  rw [hpos, hlist'] at hswap
  rw [hlast, ← hlist] at hright
  rw [← hlist] at hswap
  have hfirst : (a ++ k ++ [z]).length = (a ++ k).length + 1 := List.length_append
  rw [hfirst, hpos]
  simp only [partitionRound, hleft, exec_bind_ok, hright, hswap, hincr]

/-- What is before `first` satisfies the predicate, what is from `last` on does not. -/
structure RoundInvariant (pred : κ → Bool) (proj : α → κ) (l : List α) (s : List α × Nat × Nat)
    (a m b : List α) : Prop where
  state : s = (a ++ (m ++ b), a.length, a.length + m.length)
  perm : (a ++ (m ++ b)).Perm l
  before : ∀ x ∈ a, pred (proj x) = true
  behind : ∀ x ∈ b, pred (proj x) = false

theorem partitionRound_spec {l a m b : List α} {s : List α × Nat × Nat}
    (hs : RoundInvariant pred proj l s a m b) :
    (∃ s' a' m' b', partitionRound pred proj s = .ok (.again s') ∧
        RoundInvariant pred proj l s' a' m' b' ∧ m'.length < m.length) ∨
      ∃ r n, partitionRound pred proj s = .ok (.done (r, n)) ∧ Partitioned pred proj l r n := by
  obtain ⟨rfl, hperm, ha, hb⟩ := hs
  obtain hall | ⟨k, y, c, rfl, hk, hy⟩ := all_or_first (fun x => pred (proj x)) m
  · refine .inr ⟨_, _, partitionRound_all hall, ?_⟩
    rw [← List.append_assoc] at hperm ⊢
    rw [← List.length_append]
    exact .of_append hperm (List.forall_mem_append.mpr ⟨ha, hall⟩) hb
  · have hak := List.forall_mem_append.mpr ⟨ha, hk⟩
    rw [List.append_assoc k, List.cons_append] at hperm ⊢
    obtain hnone | ⟨c, z, d, rfl, hz, hd⟩ := none_or_last (fun x => pred (proj x)) c
    · refine .inr ⟨_, _, partitionRound_none hk hy hnone, ?_⟩
      rw [← List.append_assoc] at hperm ⊢
      have hcb := List.forall_mem_append.mpr ⟨hnone, hb⟩
      exact .of_append hperm hak (List.forall_mem_cons.mpr ⟨hy, hcb⟩)
    · refine .inl ⟨_, a ++ k ++ [z], c, y :: d ++ b, partitionRound_swap hk hy hz hd,
        ⟨rfl, ?_, ?_, ?_⟩, ?_⟩
      · have hswap := perm_exchange (a ++ k) y c z (d ++ b)
        simp only [List.append_assoc, List.cons_append, List.nil_append] at hperm hswap ⊢
        exact hswap.trans hperm
      · exact List.forall_mem_append.mpr ⟨hak, by simpa using hz⟩
      · exact List.forall_mem_append.mpr ⟨List.forall_mem_cons.mpr ⟨hy, hd⟩, hb⟩
      · simp only [List.length_append, List.length_cons]
        omega

theorem partitionBidirectional_spec (pred : κ → Bool) (proj : α → κ) (t : Iterator.RangeTraits)
    (l : List α) :
    ∃ r n, partitionBidirectional pred proj t l = .ok (r, n) ∧ Partitioned pred proj l r n := by
  have hend := advanceToEnd_eq t (Nat.zero_le l.length)
  have hround : ∀ s : List α × Nat × Nat, (∃ a m b, RoundInvariant pred proj l s a m b) →
      (∃ s', partitionRound pred proj s = .ok (.again s') ∧
        (∃ a m b, RoundInvariant pred proj l s' a m b) ∧ s'.2.2 - s'.2.1 < s.2.2 - s.2.1) ∨
      ∃ r, partitionRound pred proj s = .ok (.done r) ∧ Partitioned pred proj l r.1 r.2 := by
    rintro s ⟨a, m, b, hs⟩
    obtain ⟨s', a', m', b', hrun, hs', hlt⟩ | ⟨r, n, hrun, h⟩ := partitionRound_spec hs
    · refine .inl ⟨s', hrun, ⟨a', m', b', hs'⟩, ?_⟩
      rw [hs.state, hs'.state, Nat.add_sub_cancel_left, Nat.add_sub_cancel_left]
      exact hlt
    · exact .inr ⟨(r, n), hrun, h⟩
  obtain ⟨⟨r, n⟩, hrun, h⟩ := whileTrue_spec _ hround (l.length + 1) (l, 0, l.length)
    ⟨[], l, [], by simp, by simp, by simp, by simp⟩ (by simp)
  exact ⟨r, n, by rw [partitionBidirectional, hend, exec_bind_ok, hrun], h⟩

/-- Either implementation partitions the range, at the same position and with the same elements
on either side. -/
theorem partition_correct (pred : κ → Bool) (proj : α → κ) (t : Iterator.RangeTraits) (l : List α) :
    ∃ r r' n, partitionForward pred proj l = .ok (r, n) ∧
      partitionBidirectional pred proj t l = .ok (r', n) ∧
      partition pred proj t l = .ok (if t.bidirectional then r' else r, n) ∧
      Partitioned pred proj l r n ∧ Partitioned pred proj l r' n ∧
      (r.take n).Perm (r'.take n) ∧ (r.drop n).Perm (r'.drop n) := by
  obtain ⟨r, n, hrun, h⟩ := partitionForward_spec pred proj l
  obtain ⟨r', n', hrun', h'⟩ := partitionBidirectional_spec pred proj t l
  obtain rfl : n' = n := h'.count.trans h.count.symm
  refine ⟨r, r', n', hrun, hrun', ?_, h, h', h.sides.1.trans h'.sides.1.symm,
    h.sides.2.trans h'.sides.2.symm⟩
  unfold partition
  split
  · exact hrun'
  · exact hrun

end EARanges.Algorithm
