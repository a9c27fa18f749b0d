import EARanges.Utility.Optional
import EARanges.Utility.SemiregularBox
import Mathlib.Logic.Relation

/-!
# Lifetimes in `optional` and `semiregular_box`

The law of the two holders: after each of their operations, also one that an element's
constructor or assignment has thrown out of, the flags tell which elements are alive, no dead
element was touched, and unless something was thrown the target has taken over what the source
held.
-/
namespace EARanges.Utility.HolderLaw
open EARanges.Support.Lifetime

variable {ι α : Type}

inductive Holder where
  | semiregularBox | optional
  deriving DecidableEq, Repr

/-- `construct` and `assign` are from another holder, `t` being the target. -/
inductive Op (ι α : Type) where
  | construct (how : Transfer) (t s : ι)
  | assign (how : Transfer) (t s : ι)
  | emplace (t : ι) (a : Arg ι α)
  | assignValue (t : ι) (a : Arg ι α)
  | reset (t : ι)
  | swap (t s : ι)
  deriving DecidableEq, Repr

namespace Op

/-- A box has no `emplace`, no assignment of a value and no `swap` of its own. -/
def run [DecidableEq ι] (nrvo : Bool) (T : ElementType α) :
    Holder → Op ι α → Effect ι Bool α Unit
  | .semiregularBox, .construct .copy t s => SemiregularBox.copyConstruct T t s
  | .semiregularBox, .construct .move t s => SemiregularBox.moveConstruct T t s
  | .semiregularBox, .assign .copy t s => SemiregularBox.copyAssign T t s
  | .semiregularBox, .assign .move t s => SemiregularBox.moveAssign T t s
  | .semiregularBox, .reset t => SemiregularBox.reset t
  | .optional, .construct .copy t s => Optional.copyConstruct T t s
  | .optional, .construct .move t s => Optional.moveConstruct T t s
  | .optional, .assign .copy t s => Optional.copyAssign T t s
  | .optional, .assign .move t s => Optional.moveAssign T t s
  | .optional, .emplace t a => Optional.emplace T t a
  | .optional, .assignValue t a => Optional.assignValue T t a
  | .optional, .reset t => Optional.reset T t
  | .optional, .swap t s => Optional.swap nrvo T t s
  | .semiregularBox, _ => throw .illFormed

/-- What the members require of the element. A constructor makes a new holder, assignments of
an optional are deleted unless the element can be assigned, and arguments are alive. -/
def Admissible (T : ElementType α) (w : ι → Slot Bool α) : Holder → Op ι α → Prop
  | _, .construct how t s => t ≠ s ∧ T.constructible how = true
  | .semiregularBox, .assign how _ _ => T.constructible how = true
  | .optional, .assign how _ _ => T.constructible how = true ∧ T.assignable how = true
  | .optional, .emplace _ a | .optional, .assignValue _ a => (a.lookup w).isSome = true
  | _, .reset _ => True
  | .optional, .swap _ _ =>
    T.constructible .move = true ∧ (T.adlSwappable = true ∨ T.assignable .move = true)
  | .semiregularBox, _ => False

/-- The operations that break the law: the copy assignment of a box whose element cannot be
copy-assigned, the assignment of a full box to itself if its element cannot be move-assigned,
and an `emplace` of the optional's own element. -/
def Breaks (T : ElementType α) (w : ι → Slot Bool α) : Holder → Op ι α → Prop
  | .semiregularBox, .assign .copy _ _ => T.assignable .copy = false
  | .semiregularBox, .assign .move t s =>
    t = s ∧ (w t).note = true ∧ T.assignable .move = false
  | .optional, .emplace t a => a = .copyOf t ∨ a = .moveOf t
  | _, _ => False

end Op

/-- The target at `t` has the engagement and value of the source at `s`, which keeps its
engagement, and its value too if that was copied. The value that an element gets from its own
assignment is the element's affair. -/
structure Took (how : Transfer) (t s : ι) (w w' : ι → Slot Bool α) : Prop where
  target : t ≠ s → w' t = w s
  engaged : (w' s).note = (w s).note
  copied : how = .copy → w' s = w s

/-- What an operation that has returned has done. -/
def Op.Done (w w' : ι → Slot Bool α) : Op ι α → Prop
  | .construct how t s | .assign how t s => Took how t s w w'
  | .emplace t a => w' t = ⟨a.lookup w, true⟩
  | .assignValue t a => (w' t).note = true ∧ (a ≠ .moveOf t → w' t = ⟨a.lookup w, true⟩)
  | .reset t => w' t = Slot.vacant
  | .swap t s => w' t = w s ∧ w' s = w t

/-- The law for an operation in a state, when `plan` says what throws. -/
def Law [DecidableEq ι] (nrvo : Bool) (T : ElementType α) (h : Holder) (w : ι → Slot Bool α)
    (op : Op ι α) (plan : List (Option (α × α))) : Prop :=
  EndsWith (op.run nrvo T h) w plan (fun _ w' => Flagged w' ∧ op.Done w w') Flagged

/-! ## Taking over -/

variable [DecidableEq ι] {nrvo : Bool} {T : ElementType α} {h : Holder}
  {w w₁ : ι → Slot Bool α} {how : Transfer} {t s i : ι} {x y z : α} {a : Arg ι α}

theorem Took.storage : Took how t s w (Function.update w t (w s)) := by
  have hsame : Function.update w t (w s) s = w s := by
    by_cases hts : s = t
    · rw [hts, Function.update_self]
    · rw [Function.update_of_ne hts]
  exact ⟨fun _ => Function.update_self .., by rw [hsame], fun _ => hsame⟩

theorem Took.vacate (hs : w s = .vacant) : Took how t s w (Function.update w t .vacant) := by
  rw [← hs]
  exact .storage

theorem Took.fill (how : Transfer) (hts : t ≠ s) (h₁ : w₁ s = w s) (hs : w s = .holding x) :
    Took how t s w (Function.update ((how.of s).left w₁ y) t (.holding x)) where
  target _ := by rw [Function.update_self, hs]
  engaged := by rw [Function.update_of_ne hts.symm, Arg.left_note, h₁]
  copied hcopy := by
    rw [Function.update_of_ne hts.symm, hcopy]
    exact h₁

theorem Took.assign (ht : w t = .holding z) (hs : w s = .holding x) :
    Took how t s w (withCell ((how.of s).left w y) t (some (assigned T t x (how.of s)))) := by
  have hflag : (w t).note = true := congrArg Slot.note ht
  refine ⟨fun hts => ?_, by simp, ?_⟩
  · have hval : assigned T t x (how.of s) = x := by
      cases how with
      | copy => rfl
      | move => exact assigned_of_ne fun h => hts (Arg.moveOf.inj h).symm
    rw [withCell_self, Arg.left_note, hflag, hval, hs]
    rfl
  · rintro rfl
    by_cases hts : s = t
    · rw [hts, withCell_self, Arg.left_note, hflag, ← hts, hs]
      rfl
    · exact withCell_of_ne hts

/-! ## Operations that keep the law -/

/-- Where the target has just been vacated. -/
theorem ensures_filling {build : Effect ι Bool α Unit} (hw : Flagged w) (hts : t ≠ s)
    (hbuild : Fills build T t (how.of s)) (hs : w s = .holding x) :
    Ensures build (Function.update w t .vacant) (fun _ w' => Flagged w' ∧ Took how t s w w')
      Flagged := by
  have hsource : Function.update w t Slot.vacant s = w s := Function.update_of_ne hts.symm ..
  have ha : (how.of s).lookup (Function.update w t Slot.vacant) = some x :=
    Arg.lookup_of_holding (hsource.trans hs)
  exact hbuild (Function.update_self ..) ha (fun y => hw.vacate.left ha)
    ⟨(hw.vacate.left ha).hold, Took.fill how hts hsource hs⟩

/-- Where the target is vacant and the source is not. -/
theorem ensures_filling_vacant {build : Effect ι Bool α Unit} (hw : Flagged w)
    (hbuild : Fills build T t (how.of s)) (ht : w t = .vacant) (hs : w s = .holding x) :
    Ensures build w (fun _ w' => Flagged w' ∧ Took how t s w w') Flagged := by
  have hts : t ≠ s := by
    rintro rfl
    cases ht.symm.trans hs
  have hfilling := ensures_filling hw hts hbuild hs
  rwa [← ht, Function.update_eq_self] at hfilling

theorem ensures_constructing {build : Effect ι Bool α Unit} (hw : Flagged w) (hts : t ≠ s)
    (hbuild : Fills build T t (how.of s)) :
    Ensures (do
        newPlace t
        if ← noteAt s then build) w
      (fun _ w' => Flagged w' ∧ Took how t s w w') Flagged := by
  refine Ensures.bind (ensures_setSlots (Ensures.bind (ensures_noteAt ?_)))
  rw [Function.update_of_ne hts.symm]
  obtain hs | ⟨x, hs⟩ := hw.vacant_or_holding s
  · rw [hs]
    exact ensures_pure ⟨hw.vacate, .vacate hs⟩
  · rw [hs]
    exact ensures_filling hw hts hbuild hs

theorem ensures_assigning (how : Transfer) (hw : Flagged w) (ht : w t = .holding z)
    (hs : w s = .holding x) :
    Ensures (assignAt T t (how.of s)) w (fun _ w' => Flagged w' ∧ Took how t s w w')
      Flagged := by
  have ha : (how.of s).lookup w = some x := Arg.lookup_of_holding hs
  have hflag (y : α) : ((how.of s).left w y t).note = true :=
    (Arg.left_note ..).trans (congrArg Slot.note ht)
  exact ensures_assignAt (congrArg Slot.cell ht) ha
    (fun z y => (hw.left ha).withCell (hflag y))
    ⟨(hw.left ha).withCell (hflag _), .assign ht hs⟩

/-! ## `semiregular_box` -/

theorem ensures_boxAssign {inPlace : Effect ι Bool α Unit} (hw : Flagged w)
    (hin : ∀ z x, w t = .holding z → w s = .holding x →
      Ensures inPlace w (fun _ w' => Flagged w' ∧ Took how t s w w') Flagged) :
    Ensures (SemiregularBox.assignWith how inPlace T t s) w
      (fun _ w' => Flagged w' ∧ Took how t s w w') Flagged := by
  refine Ensures.bind (ensures_noteAt (Ensures.bind (ensures_noteAt ?_)))
  obtain ht | ⟨z, ht⟩ := hw.vacant_or_holding t <;>
    obtain hs | ⟨x, hs⟩ := hw.vacant_or_holding s <;> rw [ht, hs]
  · refine ensures_pure ⟨hw, ?_⟩
    have htook : Took how t s w (Function.update w t Slot.vacant) := .vacate hs
    rwa [← ht, Function.update_eq_self] at htook
  · exact ensures_filling_vacant hw (fill_fills T t _) ht hs
  · exact ensures_clear hw ⟨hw.vacate, .vacate hs⟩
  · exact hin z x ht hs

/-- The box rebuilds its object from that of another box. -/
theorem ensures_boxMoveAssignData (hw : Flagged w)
    (hself : t = s → T.assignable .move = true) (ht : w t = .holding z)
    (hs : w s = .holding x) :
    Ensures (SemiregularBox.moveAssignData T t s) w
      (fun _ w' => Flagged w' ∧ Took .move t s w w') Flagged := by
  unfold SemiregularBox.moveAssignData
  split
  next => exact ensures_assigning .move hw ht hs
  next hassign =>
    have hts : t ≠ s := fun h => hassign (hself h)
    exact Ensures.bind (ensures_clear hw (ensures_filling hw hts (fill_fills T t _) hs))

/-! ## `optional` -/

theorem ensures_optionalConstruct (hw : Flagged w) (hts : t ≠ s) :
    Ensures (Optional.constructWith how T t s) w
      (fun _ w' => Flagged w' ∧ Took how t s w w') Flagged := by
  unfold Optional.constructWith
  split
  · exact ensures_setSlots ⟨hw.update (hw s), .storage⟩
  · exact ensures_constructing hw hts (Optional.constructFrom_fills T t _)

theorem ensures_optionalAssign (hw : Flagged w) :
    Ensures (Optional.assignWith how T t s) w
      (fun _ w' => Flagged w' ∧ Took how t s w w') Flagged := by
  unfold Optional.assignWith
  split
  · exact ensures_setSlots ⟨hw.update (hw s), .storage⟩
  · refine Ensures.bind (ensures_noteAt ?_)
    obtain hs | ⟨x, hs⟩ := hw.vacant_or_holding s
    · rw [hs]
      exact Optional.ensures_reset hw ⟨hw.vacate, .vacate hs⟩
    · rw [hs]
      refine Ensures.bind (ensures_noteAt ?_)
      obtain ht | ⟨z, ht⟩ := hw.vacant_or_holding t
      · rw [ht]
        exact ensures_filling_vacant hw (fill_fills T t _) ht hs
      · rw [ht]
        exact ensures_assigning how hw ht hs

theorem ensures_emplace (hw : Flagged w) (ha : a.lookup w = some x)
    (hcopy : a ≠ .copyOf t) (hmove : a ≠ .moveOf t) :
    Ensures (Optional.emplace T t a) w
      (fun _ w' => Flagged w' ∧ w' t = ⟨a.lookup w, true⟩) Flagged := by
  have ha' : a.lookup (Function.update w t Slot.vacant) = some x := by
    rw [Arg.lookup_update hcopy hmove, ha]
  refine Ensures.bind (Optional.ensures_reset hw ?_)
  refine Optional.constructFrom_fills T t a (Function.update_self ..) ha'
    (fun y => hw.vacate.left ha') ⟨(hw.vacate.left ha').hold, ?_⟩
  rw [Function.update_self, ha]
  rfl

theorem ensures_assignValue (hw : Flagged w) (ha : a.lookup w = some x) :
    Ensures (Optional.assignValue T t a) w
      (fun _ w' => Flagged w' ∧ Op.Done w w' (.assignValue t a)) Flagged := by
  refine Ensures.bind (ensures_noteAt ?_)
  obtain ht | ⟨z, ht⟩ := hw.vacant_or_holding t
  · rw [ht]
    refine Optional.constructFrom_fills T t a ht ha (fun y => hw.left ha)
      ⟨(hw.left ha).hold, ?_⟩
    rw [Op.Done, Function.update_self, ha]
    exact ⟨rfl, fun _ => rfl⟩
  · rw [ht]
    have hflag (y : α) : (a.left w y t).note = true :=
      (Arg.left_note ..).trans (congrArg Slot.note ht)
    refine ensures_assignAt (congrArg Slot.cell ht) ha
      (fun z y => (hw.left ha).withCell (hflag y)) ⟨(hw.left ha).withCell (hflag _), ?_⟩
    rw [Op.Done, withCell_self, hflag, ha]
    exact ⟨rfl, fun hmove => by rw [assigned_of_ne hmove]⟩

/-! ## `swap` -/

/-- Once the object at `t` is the one that was at `s`, and only `x` has to go to `s`. -/
theorem swapped_of_cell (ht : w t = .holding x) (hs : w s = .holding y)
    (hnote : ∀ i, (w₁ i).note = (w i).note) (hcell : t ≠ s → (w₁ t).cell = some y) :
    withCell w₁ s (some x) t = w s ∧ withCell w₁ s (some x) s = w t := by
  have hsource : withCell w₁ s (some x) s = w t := by
    rw [withCell_self, hnote, hs, ht]
    rfl
  refine ⟨?_, hsource⟩
  by_cases hts : t = s
  · rw [← hts] at hsource ⊢
    exact hsource
  · have hnote_t : (w₁ t).note = true := (hnote t).trans (congrArg Slot.note ht)
    rw [withCell_of_ne hts, hs, Slot.holding, ← hcell hts, ← hnote_t]

theorem ensures_adlSwap (hw : Flagged w) (ht : w t = .holding x) (hs : w s = .holding y) :
    Ensures (Optional.adlSwap t s) w
      (fun _ w' => Flagged w' ∧ w' t = w s ∧ w' s = w t) Flagged := by
  have hflagged (x' y' : α) : Flagged (withCell (withCell w t (some x')) s (some y')) := by
    refine (hw.withCell (congrArg Slot.note ht)).withCell ?_
    exact (withCell_note ..).trans (congrArg Slot.note hs)
  refine Ensures.bind (ensures_access (congrArg Slot.cell ht) ?_)
  refine Ensures.bind (ensures_access (congrArg Slot.cell hs) ?_)
  refine Ensures.bind (ensures_attempt ?_)
  rintro (_ | ⟨x', y'⟩)
  · refine ensures_setSlots ⟨hflagged y x, swapped_of_cell ht hs (fun i => by simp) fun _ => ?_⟩
    rw [withCell_self]
  · exact Ensures.bind (ensures_setSlots (ensures_throw (hflagged x' y')))

theorem ensures_exchange (hw : Flagged w) (ht : w t = .holding x) (hs : w s = .holding y) :
    Ensures (Optional.exchange nrvo T t s) w
      (fun tmp w' => tmp = x ∧ Flagged w' ∧ (∀ i, (w' i).note = (w i).note) ∧
        (t ≠ s → (w' t).cell = some y)) Flagged := by
  have hnote_t : (w t).note = true := congrArg Slot.note ht
  have hnote_s : (w s).note = true := congrArg Slot.note hs
  have hmoved (x' : α) : Flagged ((Arg.moveOf t).left w x') := hw.withCell hnote_t
  refine Ensures.bind (ensures_construct (congrArg Slot.cell ht) hmoved ?_)
  -- the object that is moved to `t`: what is left of `x` if `s` is `t`
  obtain ⟨y', hy'⟩ := (hmoved (T.husk x)).alive (i := s) (by rw [Arg.left_note, hnote_s])
  have hflagged (y z : α) :
      Flagged (withCell ((Arg.moveOf s).left ((Arg.moveOf t).left w (T.husk x)) y) t
        (some z)) := by
    refine ((hmoved _).left (a := .moveOf s) hy').withCell ?_
    rw [Arg.left_note, Arg.left_note, hnote_t]
  have hhusk : ((Arg.moveOf t).left w (T.husk x) t).cell = some (T.husk x) := by
    rw [Arg.left, withCell_self]
  have hcell : t ≠ s →
      (withCell ((Arg.moveOf s).left ((Arg.moveOf t).left w (T.husk x)) (T.husk y')) t
        (some (assigned T t y' (.moveOf s))) t).cell = some y := by
    intro hts
    rw [Arg.left, withCell_of_ne (Ne.symm hts), hs] at hy'
    rw [withCell_self, assigned_of_ne fun h => hts (Arg.moveOf.inj h).symm]
    exact hy'.symm
  refine Ensures.bind (ensures_assignAt hhusk hy' (fun z y => hflagged y z) ?_)
  cases nrvo with
  | true => exact ensures_pure ⟨rfl, hflagged _ _, fun i => by simp, hcell⟩
  | false =>
    exact ensures_construct rfl (fun _ => hflagged _ _)
      ⟨rfl, hflagged _ _, fun i => by simp [Arg.left], hcell⟩

theorem ensures_swapElements (hw : Flagged w) (ht : w t = .holding x)
    (hs : w s = .holding y) :
    Ensures (Optional.swapElements nrvo T t s) w
      (fun _ w' => Flagged w' ∧ w' t = w s ∧ w' s = w t) Flagged := by
  unfold Optional.swapElements
  split
  · exact ensures_adlSwap hw ht hs
  · refine Ensures.bind (Ensures.mono (ensures_exchange hw ht hs) ?_ fun _ h => h)
    rintro tmp w₁ ⟨rfl, hw₁, hnote, hcell⟩
    have hnote_s : (w₁ s).note = true := (hnote s).trans (congrArg Slot.note hs)
    obtain ⟨z, hz⟩ := hw₁.alive hnote_s
    exact ensures_assignAt hz rfl (fun z y => hw₁.withCell hnote_s)
      ⟨hw₁.withCell hnote_s, swapped_of_cell ht hs hnote hcell⟩

/-- The branch of `swap_` where one of the two is disengaged. -/
theorem ensures_handOver {src dst : ι} (hw : Flagged w) (hsrc : w src = .holding x)
    (hdst : w dst = .vacant) :
    Ensures (do
        Optional.constructFrom T dst (.moveOf src)
        Optional.reset T src) w
      (fun _ w' => Flagged w' ∧ w' dst = w src ∧ w' src = w dst) Flagged := by
  have hne : dst ≠ src := by
    rintro rfl
    cases hdst.symm.trans hsrc
  have ha : (Arg.moveOf src).lookup w = some x := congrArg Slot.cell hsrc
  refine Ensures.bind (Optional.constructFrom_fills T dst _ hdst ha (fun y => hw.left ha) ?_)
  refine Optional.ensures_reset (hw.left ha).hold ⟨(hw.left ha).hold.vacate, ?_, ?_⟩
  · rw [Function.update_of_ne hne, Function.update_self, hsrc]
  · rw [Function.update_self, hdst]

theorem ensures_swap (hw : Flagged w) :
    Ensures (Optional.swap nrvo T t s) w
      (fun _ w' => Flagged w' ∧ w' t = w s ∧ w' s = w t) Flagged := by
  unfold Optional.swap
  split
  · refine ensures_setSlots ⟨(hw.update (hw s)).update (hw t), ?_, Function.update_self ..⟩
    by_cases hts : t = s
    · rw [hts, Function.update_self]
    · rw [Function.update_of_ne hts, Function.update_self]
  · refine Ensures.bind (ensures_noteAt (Ensures.bind (ensures_noteAt ?_)))
    obtain ht | ⟨x, ht⟩ := hw.vacant_or_holding t <;>
      obtain hs | ⟨y, hs⟩ := hw.vacant_or_holding s <;>
      rw [congrArg Slot.note ht, congrArg Slot.note hs]
    · exact ensures_pure ⟨hw, ht.trans hs.symm, hs.trans ht.symm⟩
    · exact ensures_handOver hw hs ht
    · exact Ensures.mono (ensures_handOver hw ht hs) (fun _ w' h => ⟨h.1, h.2.2, h.2.1⟩)
        fun _ h => h
    · exact ensures_swapElements hw ht hs

/-! ## The law -/

theorem ensures_of_not_breaks {op : Op ι α} (hw : Flagged w) (hop : op.Admissible T w h)
    (hkeeps : ¬op.Breaks T w h) :
    Ensures (op.run nrvo T h) w (fun _ w' => Flagged w' ∧ op.Done w w') Flagged := by
  cases h with
  | semiregularBox =>
    cases op with
    | construct how t s =>
      cases how <;> exact ensures_constructing hw hop.1 (fill_fills T t _)
    | assign how t s =>
      cases how with
      | copy =>
        have hassign : T.assignable .copy = true := eq_true_of_ne_false hkeeps
        simp only [Op.run, SemiregularBox.copyAssign, hassign]
        exact ensures_boxAssign hw fun z x ht hs => ensures_assigning .copy hw ht hs
      | move =>
        refine ensures_boxAssign hw fun z x ht hs => ?_
        refine ensures_boxMoveAssignData hw (fun hts => ?_) ht hs
        exact eq_true_of_ne_false fun hassign =>
          hkeeps ⟨hts, congrArg Slot.note ht, hassign⟩
    | reset t => exact ensures_clear hw ⟨hw.vacate, Function.update_self ..⟩
    | emplace _ _ | assignValue _ _ | swap _ _ => exact hop.elim
  | optional =>
    cases op with
    | construct how t s => cases how <;> exact ensures_optionalConstruct hw hop.1
    | assign how t s => cases how <;> exact ensures_optionalAssign hw
    | emplace t a =>
      obtain ⟨x, ha⟩ := Option.isSome_iff_exists.mp hop
      obtain ⟨hcopy, hmove⟩ := not_or.mp hkeeps
      exact ensures_emplace hw ha hcopy hmove
    | assignValue t a =>
      obtain ⟨x, ha⟩ := Option.isSome_iff_exists.mp hop
      exact ensures_assignValue hw ha
    | reset t => exact Optional.ensures_reset hw ⟨hw.vacate, Function.update_self ..⟩
    | swap t s => exact ensures_swap hw

/-- The box destroys its object before it reads it. -/
theorem halts_boxMoveAssign (hw : Flagged w) (ht : (w t).note = true)
    (hassign : T.assignable .move = false) :
    Halts (SemiregularBox.moveAssign T t t) w .deadAccess := by
  refine .of_ensures (ensures_noteAt (.of_ensures (ensures_noteAt ?_)))
  rw [ht]
  simp only [Bool.and_self, if_true, SemiregularBox.moveAssignData, hassign]
  refine .of_ensures (ensures_clear hw (Halts.bind (.constructAt ?_)))
  rw [Arg.lookup, Function.update_self]
  rfl

/-- `reset` destroys the argument. -/
theorem halts_emplace (hw : Flagged w) (ha : a = .copyOf t ∨ a = .moveOf t) :
    Halts (Optional.emplace T t a) w .deadAccess := by
  refine .of_ensures (Optional.ensures_reset hw (.of_ensures (ensures_noteAt ?_)))
  rw [Function.update_self]
  refine Halts.bind (.constructAt ?_)
  obtain rfl | rfl := ha <;> rw [Arg.lookup, Function.update_self] <;> rfl

theorem halts_of_breaks (nrvo : Bool) {op : Op ι α} (hw : Flagged w) (hbreaks : op.Breaks T w h) :
    ∃ e ≠ .exception, Halts (op.run nrvo T h) w e := by
  cases h with
  | semiregularBox =>
    cases op with
    | assign how t s =>
      cases how with
      | copy =>
        refine ⟨.illFormed, by decide, fun plan => ⟨⟨w, plan⟩, ?_⟩⟩
        simp only [Op.run, SemiregularBox.copyAssign, show T.assignable .copy = false from hbreaks]
        rfl
      | move =>
        obtain ⟨rfl, ht, hassign⟩ := hbreaks
        exact ⟨.deadAccess, by decide, halts_boxMoveAssign hw ht hassign⟩
    | construct _ _ _ | reset _ | emplace _ _ | assignValue _ _ | swap _ _ =>
      exact hbreaks.elim
  | optional =>
    cases op with
    | emplace t a => exact ⟨.deadAccess, by decide, halts_emplace hw hbreaks⟩
    | construct _ _ _ | assign _ _ _ | reset _ | assignValue _ _ | swap _ _ =>
      exact hbreaks.elim

/-- The law holds of an operation exactly if it is none of the three that break it. -/
theorem holderLaw_iff {op : Op ι α} (hw : Flagged w) (hop : op.Admissible T w h)
    (plan : List (Option (α × α))) : Law nrvo T h w op plan ↔ ¬op.Breaks T w h := by
  refine ⟨fun hlaw hbreaks => ?_, fun hkeeps => ensures_of_not_breaks hw hop hkeeps plan⟩
  obtain ⟨e, he, hhalts⟩ := halts_of_breaks nrvo hw hbreaks
  exact hhalts.not_endsWith he plan _ _ hlaw

/-- The type of a lambda with captures: it can be copied and moved but not assigned. -/
def lambda : ElementType Nat where
  constructible _ := true
  assignable _ := false
  triviallyConstructible _ := true
  triviallyAssignable _ := false
  triviallyDestructible := true
  adlSwappable := false
  husk x := x
  selfMoved x := x

/-- `box = std::move(box)`, where the box holds one. -/
theorem holderLaw_selfMove :
    Flagged (fun _ : Unit => Slot.holding 5) ∧
      (Op.assign .move () ()).Admissible lambda (fun _ => .holding 5) .semiregularBox ∧
      ¬Law true lambda .semiregularBox (fun _ => .holding 5) (.assign .move () ()) [] :=
  ⟨fun _ => rfl, rfl, id⟩

/-- Two holders, of which one is engaged. -/
def oneEngaged : Bool → Slot Bool Nat
  | true => .holding 5
  | false => .vacant

theorem holderLaw_iff_throwing :
    Law true lambda .semiregularBox oneEngaged (.assign .move false true) [some (1, 2)] ↔
      ¬(Op.assign .move false true).Breaks lambda oneEngaged .semiregularBox := by
  have hw : Flagged oneEngaged := fun i => by cases i <;> rfl
  have hop : (Op.assign .move false true).Admissible lambda oneEngaged .semiregularBox := rfl
  exact holderLaw_iff hw hop _

/-! ## Runs -/

/-- One operation of the law, returned from or thrown out of. -/
def Step (nrvo : Bool) (T : ElementType α) (h : Holder) (w w' : ι → Slot Bool α) : Prop :=
  ∃ op : Op ι α, op.Admissible T w h ∧ ¬op.Breaks T w h ∧ ∃ m m', m.slot = w ∧ m'.slot = w' ∧
    (op.run nrvo T h m = .ok () m' ∨ op.run nrvo T h m = .error .exception m')

theorem Step.flagged (hstep : Step nrvo T h w w₁) (hw : Flagged w) : Flagged w₁ := by
  obtain ⟨op, hop, hkeeps, ⟨_, plan⟩, m', rfl, rfl, hrun⟩ := hstep
  have hlaw : Law nrvo T h _ op plan := ensures_of_not_breaks hw hop hkeeps plan
  unfold Law EndsWith at hlaw
  obtain hrun | hrun := hrun <;> rw [hrun] at hlaw
  · exact hlaw.1
  · exact hlaw

theorem flagged_of_steps (hrun : Relation.ReflTransGen (Step nrvo T h) w w₁)
    (hw : Flagged w) : Flagged w₁ := by
  induction hrun with
  | refl => exact hw
  | tail _ hstep ih => exact hstep.flagged ih

end EARanges.Utility.HolderLaw
