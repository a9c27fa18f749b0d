import EARanges.Algorithm.AdjacentRemoveIf
import EARanges.Algorithm.FindIf
import EARanges.Support.WhileTrue

/-!
# `unstable_remove_if`

algorithm/unstable_remove_if.hpp. The gap left by an element that is removed is filled with the
last one that is kept.
-/
namespace EARanges.Algorithm
open EARanges.Support

variable {α κ : Type}

section
variable (pred : κ → Bool) (proj : α → κ)

/-- The body of the loop, on the range, `first` and `last`. -/
def unstableRemoveIfRound (husk : α → α) (s : List α × Nat × Nat) :
    Exec (Iteration (List α × Nat × Nat) (List α × Nat)) := do
  let (l, first, last) := s
  let first ← findIf pred proj l last (l.length + 1) first
  if first = last then .ok (.done (l, first))
  else
    let bound ← incr l first
    let found ← findIfNotReverse pred proj l bound (l.length + 1) last
    let last ← stepBack found
    if first = last then .ok (.done (l, first))
    else
      let l ← assignMoved husk l first last
      let first ← incr l first
      .ok (.again (l, first, last))

def unstableRemoveIf (husk : α → α) (l : List α) : Exec (List α × Nat) :=
  whileTrue (unstableRemoveIfRound pred proj husk) (l.length + 1) (l, 0, l.length)

end

variable {pred : κ → Bool} {proj : α → κ}

/-! ## The three ways through a round -/

/-- Everything is kept. -/
theorem unstableRemoveIfRound_kept (husk : α → α) {a m b : List α}
    (hm : ∀ x ∈ m, pred (proj x) = false) :
    unstableRemoveIfRound pred proj husk (a ++ (m ++ b), a.length, a.length + m.length) =
      .ok (.done (a ++ (m ++ b), (a ++ m).length)) := by
  have hfind := findIf_none (a := a) (c := b) ((a ++ (m ++ b)).length + 1) hm
    (by simp only [List.length_append]; omega)
  have hlength : (a ++ m).length = a.length + m.length := List.length_append
  rw [hlength]
  simp only [unstableRemoveIfRound, hfind, exec_bind_ok, if_true]

theorem findIf_round {a k c b : List α} {y : α} (hk : ∀ x ∈ k, pred (proj x) = false)
    (hy : pred (proj y) = true) :
    findIf pred proj (a ++ (k ++ y :: (c ++ b))) (a.length + (k ++ y :: c).length)
      ((a ++ (k ++ y :: (c ++ b))).length + 1) a.length = .ok (a ++ k).length := by
  have hfind := findIf_some (a := a) (c := c ++ b) (a.length + (k ++ y :: c).length)
    ((a ++ (k ++ y :: (c ++ b))).length + 1) hk hy (by simp)
    (by simp only [List.length_append]; omega)
  rw [hfind, List.length_append]

theorem incr_round (a k r : List α) (y : α) :
    incr (a ++ (k ++ y :: r)) (a ++ k).length = .ok ((a ++ k).length + 1) :=
  incr_ok (by simp only [List.length_append, List.length_cons]; omega)

/-- Nothing behind the first element that is removed is kept. -/
theorem unstableRemoveIfRound_removed (husk : α → α) {a k c b : List α} {y : α}
    (hk : ∀ x ∈ k, pred (proj x) = false) (hy : pred (proj y) = true)
    (hc : ∀ x ∈ c, pred (proj x) = true) :
    unstableRemoveIfRound pred proj husk
        (a ++ (k ++ y :: (c ++ b)), a.length, a.length + (k ++ y :: c).length) =
      .ok (.done (a ++ (k ++ y :: (c ++ b)), (a ++ k).length)) := by
  have hlist : a ++ (k ++ y :: (c ++ b)) = a ++ k ++ [y] ++ (c ++ b) := by simp
  have hlength : (a ++ k ++ [y]).length = (a ++ k).length + 1 := List.length_append
  have hlast : a.length + (k ++ y :: c).length = (a ++ k).length + 1 + c.length := by
    simp only [List.length_append, List.length_cons]
    omega
  have hsearch := findIfNotReverse_none (a := a ++ k ++ [y]) (c := b)
    ((a ++ (k ++ y :: (c ++ b))).length + 1) hc
    (by simp only [List.length_append, List.length_cons]; omega)
  rw [← hlist, hlength, ← hlast] at hsearch
  have hne : (a ++ k).length ≠ a.length + (k ++ y :: c).length := by omega
  simp only [unstableRemoveIfRound, findIf_round hk hy, exec_bind_ok, if_neg hne, incr_round,
    hsearch, stepBack_succ, if_true]

/-- The last element that is kept fills the gap. -/
theorem unstableRemoveIfRound_moved (husk : α → α) {a k c d b : List α} {y z : α}
    (hk : ∀ x ∈ k, pred (proj x) = false) (hy : pred (proj y) = true)
    (hz : pred (proj z) = false) (hd : ∀ x ∈ d, pred (proj x) = true) :
    unstableRemoveIfRound pred proj husk (a ++ (k ++ y :: (c ++ z :: d ++ b)), a.length,
        a.length + (k ++ y :: (c ++ z :: d)).length) =
      .ok (.again (a ++ k ++ [z] ++ (c ++ (husk z :: d ++ b)), (a ++ k ++ [z]).length,
        (a ++ k ++ [z]).length + c.length)) := by
  have hlist : a ++ (k ++ y :: (c ++ z :: d ++ b)) = a ++ k ++ y :: c ++ z :: (d ++ b) := by simp
  have hlength : (a ++ k ++ [z]).length = (a ++ k).length + 1 := List.length_append
  have hpos : (a ++ k).length + 1 + c.length = (a ++ k ++ y :: c).length := by
    simp only [List.length_append, List.length_cons]
    omega
  have hlast : (a ++ k ++ y :: c).length + 1 + d.length =
      a.length + (k ++ y :: (c ++ z :: d)).length := by
    simp only [List.length_append, List.length_cons]
    omega
  have hsearch := findIfNotReverse_some (a := a ++ k ++ y :: c) (c := b)
    ((a ++ k).length + 1) ((a ++ (k ++ y :: (c ++ z :: d ++ b))).length + 1) hz hd
    (by omega) (by simp only [List.length_append, List.length_cons]; omega)
  rw [← hlist, hlast] at hsearch
  have hmove : assignMoved husk (a ++ (k ++ y :: (c ++ z :: d ++ b))) (a ++ k).length
      (a ++ k ++ y :: c).length = .ok (a ++ k ++ [z] ++ (c ++ (husk z :: d ++ b))) := by
    have hfill := assign_append (a ++ k) y z (c ++ husk z :: (d ++ b))
    have hleft : a ++ k ++ y :: c ++ husk z :: (d ++ b) =
        a ++ k ++ y :: (c ++ husk z :: (d ++ b)) := by
      simp
    rw [assignMoved, hlist, deref_append, exec_bind_ok, assign_append, exec_bind_ok, hleft, hfill]
    simp
  have hincr : incr (a ++ k ++ [z] ++ (c ++ (husk z :: d ++ b))) (a ++ k).length =
      .ok ((a ++ k).length + 1) := by
    have h := incr_round a k (c ++ (husk z :: d ++ b)) z
    simpa using h
  have hne : (a ++ k).length ≠ a.length + (k ++ y :: (c ++ z :: d)).length := by omega
  have hne' : (a ++ k).length ≠ (a ++ k ++ y :: c).length := by omega
  rw [hlength, hpos]
  simp only [unstableRemoveIfRound, findIf_round hk hy, exec_bind_ok, if_neg hne, incr_round,
    hsearch, stepBack_succ, if_neg hne', hmove, hincr]

/-! ## The loop -/

/-- The loop works on the middle of the original range, between `p` and `q`. What is kept of
these is in `a`, and what was kept in `p` is in its own place. -/
structure Removing (pred : κ → Bool) (proj : α → κ) (a b p q : List α) : Prop where
  front : a.length = p.length
  back : b.length = q.length
  kept : a.Perm ((p ++ q).filter fun x => !pred (proj x))
  inPlace : ∀ (i : Nat) (x : α), p[i]? = some x → pred (proj x) = false → a[i]? = some x

theorem perm_insert {a p q : List α} (h : a.Perm (p ++ q)) (k : List α) :
    (a ++ k).Perm (p ++ (k ++ q)) := by
  have hmove := h.append_right k
  rw [List.append_assoc] at hmove
  exact hmove.trans (List.perm_append_comm.append_left p)

/-- What is kept in its own place, once more is appended on both sides. -/
theorem inPlace_append {a p k k' : List α} (hlength : a.length = p.length)
    (ha : ∀ (i : Nat) (x : α), p[i]? = some x → pred (proj x) = false → a[i]? = some x)
    (hk : ∀ (i : Nat) (x : α), k[i]? = some x → pred (proj x) = false → k'[i]? = some x)
    (i : Nat) (x : α) (hx : (p ++ k)[i]? = some x) (hpx : pred (proj x) = false) :
    (a ++ k')[i]? = some x := by
  rw [List.getElem?_append] at hx ⊢
  rw [hlength]
  split at hx
  next hlt => rw [if_pos hlt]; exact ha i x hx hpx
  next hge => rw [if_neg hge]; exact hk (i - p.length) x hx hpx

/-- Elements that are kept stay where they are. -/
theorem Removing.keep {a b p q k : List α} (h : Removing pred proj a b p q)
    (hk : ∀ x ∈ k, pred (proj x) = false) : Removing pred proj (a ++ k) b (p ++ k) q := by
  have hkept := h.kept
  have hkk : k.filter (fun x => !pred (proj x)) = k :=
    List.filter_eq_self.mpr fun x hx => by simp [hk x hx]
  refine ⟨by simp [h.front], h.back, ?_, inPlace_append h.front h.inPlace fun _ _ hx _ => hx⟩
  rw [List.filter_append] at hkept
  rw [List.append_assoc, List.filter_append, List.filter_append, hkk]
  exact perm_insert hkept k

/-- Elements behind all that are kept are left where they are. -/
theorem Removing.discard {a b p q d : List α} (h : Removing pred proj a b p q)
    (hd : ∀ x ∈ d, pred (proj x) = true) : Removing pred proj a (d ++ b) p (d ++ q) := by
  have hdd : d.filter (fun x => !pred (proj x)) = [] :=
    List.filter_eq_nil_iff.mpr fun x hx => by simp [hd x hx]
  refine ⟨h.front, by simp [h.back], ?_, h.inPlace⟩
  have hkept := h.kept
  rw [List.filter_append] at hkept
  rwa [List.filter_append, List.filter_append, hdd, List.nil_append]

/-- The place of `y`, which is removed, is taken by `z`, which is kept. -/
theorem Removing.fill {a b p q : List α} {y z : α} (h : Removing pred proj a b p q)
    (hy : pred (proj y) = true) (hz : pred (proj z) = false) (w : α) :
    Removing pred proj (a ++ [z]) (w :: b) (p ++ [y]) (z :: q) := by
  have hkept := h.kept
  refine ⟨by simp [h.front], by simp [h.back], ?_, inPlace_append h.front h.inPlace ?_⟩
  · rw [List.filter_append] at hkept
    have hinsert := perm_insert hkept [z]
    simpa [hy, hz] using hinsert
  · intro i x hx hpx
    obtain rfl : x = y := List.mem_singleton.mp (List.mem_of_getElem? hx)
    rw [hy] at hpx
    cases hpx

/-- What the function is for, in the range `r` with the end `n` of what is kept. -/
structure Removed (pred : κ → Bool) (proj : α → κ) (l r : List α) (n : Nat) : Prop where
  length : r.length = l.length
  kept : (r.take n).Perm (l.filter fun x => !pred (proj x))
  inPlace : ∀ i < n, ∀ x, l[i]? = some x → pred (proj x) = false → r[i]? = some x

theorem Removing.removed {a b p q : List α} (h : Removing pred proj a b p q) :
    Removed pred proj (p ++ q) (a ++ b) a.length := by
  refine ⟨by simp [h.front, h.back], by rw [List.take_left]; exact h.kept, ?_⟩
  intro i hi x hx hpx
  rw [List.getElem?_append_left (h.front ▸ hi)] at hx
  rw [List.getElem?_append_left hi]
  exact h.inPlace i x hx hpx

/-- The state of the loop on the range `l`. -/
def Running (pred : κ → Bool) (proj : α → κ) (l : List α) (s : List α × Nat × Nat)
    (m : List α) : Prop :=
  ∃ a b p q, s = (a ++ (m ++ b), a.length, a.length + m.length) ∧ l = p ++ (m ++ q) ∧
    Removing pred proj a b p q

theorem unstableRemoveIfRound_spec (husk : α → α) {l m : List α} {s : List α × Nat × Nat}
    (hs : Running pred proj l s m) :
    (∃ s' m', unstableRemoveIfRound pred proj husk s = .ok (.again s') ∧
        Running pred proj l s' m' ∧ m'.length < m.length) ∨
      ∃ r n, unstableRemoveIfRound pred proj husk s = .ok (.done (r, n)) ∧
        Removed pred proj l r n := by
  obtain ⟨a, b, p, q, rfl, rfl, h⟩ := hs
  obtain hall | ⟨k, y, c, rfl, hk, hy⟩ := all_or_first (fun x => !pred (proj x)) m
  · have hall : ∀ x ∈ m, pred (proj x) = false := fun x hx => by simpa using hall x hx
    refine .inr ⟨_, _, unstableRemoveIfRound_kept husk hall, ?_⟩
    rw [← List.append_assoc, ← List.append_assoc]
    exact (h.keep hall).removed
  · have hk : ∀ x ∈ k, pred (proj x) = false := fun x hx => by simpa using hk x hx
    have hy : pred (proj y) = true := by simpa using hy
    have hkeep := h.keep hk
    rw [List.append_assoc k, List.append_assoc k, List.cons_append, List.cons_append]
    obtain hnone | ⟨c, z, d, rfl, hz, hd⟩ := none_or_last (fun x => !pred (proj x)) c
    · have hnone : ∀ x ∈ c, pred (proj x) = true := fun x hx => by simpa using hnone x hx
      refine .inr ⟨_, _, unstableRemoveIfRound_removed husk hk hy hnone, ?_⟩
      have hdiscard := hkeep.discard (List.forall_mem_cons.mpr ⟨hy, hnone⟩)
      rw [← List.append_assoc, ← List.append_assoc]
      exact hdiscard.removed
    · have hz : pred (proj z) = false := by simpa using hz
      have hd : ∀ x ∈ d, pred (proj x) = true := fun x hx => by simpa using hd x hx
      refine .inl ⟨_, c, unstableRemoveIfRound_moved husk hk hy hz hd,
        ⟨_, _, _, _, rfl, ?_, (hkeep.discard hd).fill hy hz (husk z)⟩, ?_⟩
      · simp
      · simp only [List.length_append, List.length_cons]
        omega

/-- The elements that are kept are in front in some order, those that were there already in
their places. -/
theorem unstableRemoveIf_correct (pred : κ → Bool) (proj : α → κ) (husk : α → α) (l : List α) :
    ∃ r n, unstableRemoveIf pred proj husk l = .ok (r, n) ∧ Removed pred proj l r n := by
  have hround : ∀ s : List α × Nat × Nat, (∃ m, Running pred proj l s m) →
      (∃ s', unstableRemoveIfRound pred proj husk s = .ok (.again s') ∧
        (∃ m, Running pred proj l s' m) ∧ s'.2.2 - s'.2.1 < s.2.2 - s.2.1) ∨
      ∃ r, unstableRemoveIfRound pred proj husk s = .ok (.done r) ∧
        Removed pred proj l r.1 r.2 := by
    rintro s ⟨m, hs⟩
    obtain ⟨s', m', hrun, hs', hlt⟩ | ⟨r, n, hrun, h⟩ := unstableRemoveIfRound_spec husk hs
    · refine .inl ⟨s', hrun, ⟨m', hs'⟩, ?_⟩
      obtain ⟨a, b, p, q, rfl, _⟩ := hs
      obtain ⟨a', b', p', q', rfl, _⟩ := hs'
      simpa using hlt
    · exact .inr ⟨(r, n), hrun, h⟩
  obtain ⟨⟨r, n⟩, hrun, h⟩ := whileTrue_spec _ hround (l.length + 1) (l, 0, l.length)
    ⟨l, [], [], [], [], by simp, by simp, rfl, rfl, .refl _, by simp⟩ (by simp)
  exact ⟨r, n, hrun, h⟩

end EARanges.Algorithm
