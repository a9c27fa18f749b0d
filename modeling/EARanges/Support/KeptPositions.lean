import EARanges.Support.InPlace
import EARanges.Support.Numbered
import Mathlib.Data.List.Basic

/-!
# A range seen through a test of its positions

A view that skips elements stands on the positions that pass a test, or at the end. The number
of such a position is the number of those before it (`passed`). `FirstFrom` and `LastBefore` are
what skipping has to find; `bothWays` concludes from them that the view traverses the same
elements in both directions.
-/
namespace EARanges.Support

variable {α : Type}

section
variable (keep : Nat → Bool) (l : List α)

/-- The number of positions before `s` that pass. -/
def passed (s : Nat) : Nat := (List.range s).countP keep

/-- The elements at the positions before `s` that pass. -/
def keptBefore (s : Nat) : List α := ((List.range s).filter keep).filterMap fun k => l[k]?

def keptAt : List α := keptBefore keep l l.length

/-- The first position from `s` on that passes, or the end. -/
structure FirstFrom (s t : Nat) : Prop where
  le : s ≤ t
  stands : t = l.length ∨ t < l.length ∧ keep t = true
  between : ∀ k, s ≤ k → k < t → keep k = false

/-- The last position before `s` that passes. -/
structure LastBefore (s t : Nat) : Prop where
  lt : t < s
  keeps : keep t = true
  between : ∀ k, t < k → k < s → keep k = false

/-- `s` passes and `i` positions before it do, or it is the end. -/
structure PassNumber (i s : Nat) : Prop where
  stands : s = l.length ∨ s < l.length ∧ keep s = true
  number : passed keep s = i

end

variable {keep : Nat → Bool} {l : List α} {i s t k : Nat}

theorem passed_succ (keep : Nat → Bool) (s : Nat) :
    passed keep (s + 1) = passed keep s + if keep s then 1 else 0 := by
  rw [passed, List.range_succ, List.countP_append, List.countP_singleton]
  rfl

theorem passed_mono (h : s ≤ t) : passed keep s ≤ passed keep t := by
  induction h with
  | refl => exact Nat.le_refl _
  | step _ ih =>
    rw [passed_succ]
    exact Nat.le_add_right_of_le ih

theorem FirstFrom.refl (hstands : s = l.length ∨ s < l.length ∧ keep s = true) :
    FirstFrom keep l s s := ⟨Nat.le_refl s, hstands, fun k hk hkt => by omega⟩

theorem FirstFrom.skip (hs : keep s = false) (h : FirstFrom keep l (s + 1) t) :
    FirstFrom keep l s t where
  le := Nat.le_of_succ_le h.le
  stands := h.stands
  between k hk hkt := by
    obtain hk | rfl := Nat.lt_or_eq_of_le hk
    · exact h.between k hk hkt
    · exact hs

theorem exists_firstFrom (keep : Nat → Bool) (hs : s ≤ l.length) : ∃ t, FirstFrom keep l s t := by
  induction hrest : l.length - s generalizing s with
  | zero => exact ⟨s, .refl (.inl (by omega))⟩
  | succ rest ih =>
    cases hkeep : keep s with
    | true => exact ⟨s, .refl (.inr ⟨by omega, hkeep⟩)⟩
    | false =>
      obtain ⟨t, ht⟩ := ih (show s + 1 ≤ l.length by omega) (by omega)
      exact ⟨t, ht.skip hkeep⟩

theorem FirstFrom.le_length (h : FirstFrom keep l s t) : t ≤ l.length := by
  obtain hend | ⟨hlt, _⟩ := h.stands
  · exact Nat.le_of_eq hend
  · exact Nat.le_of_lt hlt

/-- On the way, what stands at a position tells whether it is the one sought. -/
theorem FirstFrom.end_or_keep_iff (h : FirstFrom keep l s t) (hk : s ≤ k) (hkt : k ≤ t) :
    k = l.length ∨ keep k = true ↔ k = t := by
  constructor
  · intro hstands
    by_contra hne
    have hnot := h.between k hk (by omega)
    have hle := h.le_length
    rcases hstands with hend | hkeep
    · omega
    · rw [hnot] at hkeep
      cases hkeep
  · rintro rfl
    exact h.stands.imp_right And.right

theorem exists_lastBefore {first : Nat} (hfirst : keep first = true) (hlt : first < s) :
    ∃ t, LastBefore keep s t ∧ first ≤ t := by
  induction s with
  | zero => omega
  | succ s ih =>
    cases hkeep : keep s with
    | true => exact ⟨s, ⟨Nat.lt_succ_self s, hkeep, fun k hk hks => by omega⟩, by omega⟩
    | false =>
      have hne : first ≠ s := by
        rintro rfl
        rw [hfirst] at hkeep
        cases hkeep
      obtain ⟨t, ht, hle⟩ := ih (by omega)
      refine ⟨t, ⟨Nat.lt_succ_of_lt ht.lt, ht.keeps, fun k htk hk => ?_⟩, hle⟩
      obtain hk | rfl := Nat.lt_succ_iff_lt_or_eq.mp hk
      · exact ht.between k htk hk
      · exact hkeep

/-- Nothing from `s` up to `t` passes. -/
theorem passed_eq (hst : s ≤ t) (h : ∀ k, s ≤ k → k < t → keep k = false) :
    passed keep t = passed keep s := by
  induction hst with
  | refl => rfl
  | @step t hle ih =>
    have hrest := ih fun k hk hkt => h k hk (Nat.lt_succ_of_lt hkt)
    rw [passed_succ, h t hle (Nat.lt_succ_self t), hrest]
    rfl

theorem keptBefore_succ (keep : Nat → Bool) (hs : s < l.length) :
    keptBefore keep l (s + 1) = keptBefore keep l s ++ if keep s then [l[s]] else [] := by
  rw [keptBefore, List.range_succ, List.filter_append, List.filterMap_append]
  congr 1
  cases hkeep : keep s <;> simp [hkeep, List.getElem?_eq_getElem hs]

theorem length_keptBefore (keep : Nat → Bool) (hs : s ≤ l.length) :
    (keptBefore keep l s).length = passed keep s := by
  induction s with
  | zero => rfl
  | succ s ih =>
    rw [keptBefore_succ keep hs, List.length_append, ih (Nat.le_of_lt hs), passed_succ]
    cases keep s <;> rfl

theorem length_keptAt (keep : Nat → Bool) (l : List α) :
    (keptAt keep l).length = passed keep l.length := length_keptBefore keep (Nat.le_refl _)

theorem keptBefore_prefix (keep : Nat → Bool) (hst : s ≤ t) (ht : t ≤ l.length) :
    keptBefore keep l s <+: keptBefore keep l t := by
  induction hst with
  | refl => exact List.prefix_refl _
  | step _ ih =>
    rw [keptBefore_succ keep ht]
    exact (ih (Nat.le_of_lt ht)).trans (List.prefix_append _ _)

/-- The element at a position that passes has that position's number. -/
theorem keptAt_getElem? (hs : s < l.length) (hkeep : keep s = true) :
    (keptAt keep l)[passed keep s]? = l[s]? := by
  obtain ⟨rest, hrest⟩ := keptBefore_prefix keep (Nat.succ_le_of_lt hs) (Nat.le_refl l.length)
  have hlength := length_keptBefore keep (Nat.le_of_lt hs)
  rw [keptAt, ← hrest, keptBefore_succ keep hs, if_pos hkeep, List.append_assoc, ← hlength,
    List.getElem?_append_right (Nat.le_refl _), Nat.sub_self, List.getElem?_eq_getElem hs]
  rfl

/-! ## Numbers -/

theorem PassNumber.le (h : PassNumber keep l i s) : s ≤ l.length := by
  obtain hend | ⟨hlt, _⟩ := h.stands
  · exact Nat.le_of_eq hend
  · exact Nat.le_of_lt hlt

theorem FirstFrom.number_zero (h : FirstFrom keep l 0 s) : PassNumber keep l 0 s where
  stands := h.stands
  number := passed_eq (Nat.zero_le s) h.between

theorem PassNumber.index_le (h : PassNumber keep l i s) : i ≤ (keptAt keep l).length := by
  rw [length_keptAt, ← h.number]
  exact passed_mono h.le

theorem passNumber_end (keep : Nat → Bool) (l : List α) :
    PassNumber keep l (keptAt keep l).length l.length :=
  ⟨.inl rfl, (length_keptAt keep l).symm⟩

theorem PassNumber.end_iff (h : PassNumber keep l i s) :
    s = l.length ↔ i = (keptAt keep l).length := by
  rw [length_keptAt, ← h.number]
  constructor
  · intro hend
    rw [hend]
  · intro hnumber
    obtain hend | ⟨hlt, hkeep⟩ := h.stands
    · exact hend
    · have hmono : passed keep (s + 1) ≤ passed keep l.length := passed_mono hlt
      rw [passed_succ, if_pos hkeep] at hmono
      omega

theorem PassNumber.keeps (h : PassNumber keep l i s) (hi : i < (keptAt keep l).length) :
    s < l.length ∧ keep s = true := by
  obtain hend | hkeep := h.stands
  · have hlast := h.end_iff.mp hend
    omega
  · exact hkeep

theorem PassNumber.get {x : α} (h : PassNumber keep l i s) (hx : (keptAt keep l)[i]? = some x) :
    l[s]? = some x := by
  obtain ⟨hlt, hkeep⟩ := h.keeps (List.getElem?_eq_some_iff.mp hx).1
  rw [← keptAt_getElem? hlt hkeep, h.number, hx]

theorem PassNumber.next (h : PassNumber keep l i s) (hi : i < (keptAt keep l).length)
    (ht : FirstFrom keep l (s + 1) t) : PassNumber keep l (i + 1) t where
  stands := ht.stands
  number := by
    rw [passed_eq ht.le ht.between, passed_succ, if_pos (h.keeps hi).2, h.number]

theorem PassNumber.prev (h : PassNumber keep l (i + 1) s) (ht : LastBefore keep s t) :
    PassNumber keep l i t where
  stands := .inr ⟨Nat.lt_of_lt_of_le ht.lt h.le, ht.keeps⟩
  number := by
    have hnumber := h.number
    have hrest := passed_eq (Nat.succ_le_of_lt ht.lt) fun k hk hks => ht.between k hk hks
    rw [hrest, passed_succ, if_pos ht.keeps] at hnumber
    exact Nat.succ.inj hnumber

theorem PassNumber.not_lt (h : PassNumber keep l i s) (h' : PassNumber keep l i t) : ¬ s < t := by
  intro hst
  obtain hend | ⟨_, hkeep⟩ := h.stands
  · have hle := h'.le
    omega
  · have hmono : passed keep (s + 1) ≤ passed keep t := passed_mono hst
    rw [passed_succ, if_pos hkeep, h.number, h'.number] at hmono
    omega

theorem PassNumber.unique (h : PassNumber keep l i s) (h' : PassNumber keep l i t) : s = t :=
  Nat.le_antisymm (Nat.not_lt.mp (h'.not_lt h)) (Nat.not_lt.mp (h.not_lt h'))

/-- A position whose number is not zero lies behind the first one that passes. -/
theorem PassNumber.first_lt {first : Nat} (h : PassNumber keep l (i + 1) s)
    (hfirst : FirstFrom keep l 0 first) : first < s := by
  by_contra hle
  have hnone := passed_eq (Nat.zero_le s) fun k hk hks => hfirst.between k hk (by omega)
  have hnumber := h.number
  rw [hnone] at hnumber
  exact absurd hnumber (Nat.succ_ne_zero i).symm

theorem PassNumber.first_le {first : Nat} (h : PassNumber keep l i s)
    (hfirst : FirstFrom keep l 0 first) : first ≤ s := by
  cases i with
  | zero => exact Nat.le_of_eq (hfirst.number_zero.unique h)
  | succ i => exact Nat.le_of_lt (h.first_lt hfirst)

/-! ## Traversal -/

/-- A loop over positions delivers `xs`, ends at the position `last`, and leads back the same
way without passing its start. -/
structure Loop.BothWays (v : Loop Nat α) (prev : Nat → Exec Nat) (xs : List α) (last : Nat) :
    Prop where
  delivers : v.Delivers xs
  ends : v.nth xs.length = .ok last
  prevUndoesNext : v.PrevUndoesNext prev xs.length
  reverse : Loop.collectBack prev v.read xs.length last = .ok xs.reverse
  staysBehind : ∃ first, v.start = .ok first ∧ ∀ k ≤ xs.length,
    ∃ s, Traversal.stepMany prev k last = .ok s ∧ first ≤ s

variable {v : Loop Nat α} {prev : Nat → Exec Nat} {first : Nat}

theorem passNumbers (hstart : v.start = .ok first) (hfirst : FirstFrom keep l 0 first)
    (hnext : ∀ s < l.length, ∃ t, v.next s = .ok t ∧ FirstFrom keep l (s + 1) t)
    (hatEnd : ∀ s, v.atEnd s = .ok (decide (s = l.length))) (hread : v.read = deref l) :
    v.Numbers (keptAt keep l) (PassNumber keep l) where
  start := ⟨first, hstart, hfirst.number_zero⟩
  next i s hat hi := by
    obtain ⟨t, hrun, ht⟩ := hnext s (hat.keeps hi).1
    exact ⟨t, hrun, hat.next hi ht⟩
  atEnd i s hat := by
    rw [hatEnd]
    exact congrArg Except.ok (decide_eq_decide.mpr hat.end_iff)
  read i s x hat hx := by
    rw [hread]
    exact deref_of_some (hat.get hx)

theorem bothWays (hstart : v.start = .ok first) (hfirst : FirstFrom keep l 0 first)
    (hnext : ∀ s < l.length, ∃ t, v.next s = .ok t ∧ FirstFrom keep l (s + 1) t)
    (hatEnd : ∀ s, v.atEnd s = .ok (decide (s = l.length))) (hread : v.read = deref l)
    (hprev : ∀ s, first < s → s ≤ l.length → ∃ t, prev s = .ok t ∧ LastBefore keep s t) :
    v.BothWays prev (keptAt keep l) l.length := by
  have hnumbers := passNumbers hstart hfirst hnext hatEnd hread
  have hback : ∀ i s, PassNumber keep l (i + 1) s → i < (keptAt keep l).length →
      ∃ t, prev s = .ok t ∧ PassNumber keep l i t := by
    intro i s hs _
    obtain ⟨t, hrun, ht⟩ := hprev s (hs.first_lt hfirst) hs.le
    exact ⟨t, hrun, hs.prev ht⟩
  have hend := passNumber_end keep l
  refine ⟨hnumbers.delivers, ?_, ?_, ?_, first, hstart, fun k hk => ?_⟩
  · obtain ⟨s, hrun, hs⟩ := hnumbers.nth_eq (Nat.le_refl _)
    rw [hrun, hs.unique hend]
  · exact hnumbers.prevUndoesNext (fun i s s' hs hs' => hs.unique hs') hback
  · have hreverse := Loop.collectBack_eq hnumbers.read hback hend (Nat.le_refl _)
    rwa [List.take_length] at hreverse
  · obtain ⟨s, hrun, hs⟩ := Loop.stepMany_backward hback hend (Nat.le_refl _) hk
    exact ⟨s, hrun, hs.first_le hfirst⟩

end EARanges.Support
