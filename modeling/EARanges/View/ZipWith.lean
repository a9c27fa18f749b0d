import EARanges.Support.Cursor
import EARanges.Support.Lockstep

/-!
# `iter_zip_with_view`

view/zip_with.hpp, for common bases, so that `end_cursor` is a cursor holding every
base's end. Iterators are indices. `fn` is the function `indirected` applies to the
elements the iterators point at; the bases share one element type, which a sum type
makes no restriction. `difference_type` and `size_type` enter by their greatest values.
-/
namespace EARanges.View
open EARanges.Support

/-! ## `enum cardinality` -/

def infinite : Int := -3
def unknown : Int := -2
def finite : Int := -1

/-- A common base: it is not infinite, and a static cardinality is its length. -/
structure Base (α : Type) where
  elems : List α
  cardinality : Int
  cardinality_ok : cardinality = elems.length ∨ cardinality = finite ∨ cardinality = unknown

def Base.length {α : Type} (b : Base α) : Nat := b.elems.length

structure IterZipWithView (α γ : Type) where
  rngs : List (Base α)
  fn : List α → γ
  nonempty : rngs ≠ []
  differenceMax : Nat
  sizeMax : Nat
  length_le : ∀ b ∈ rngs, b.length ≤ differenceMax
  difference_le : differenceMax ≤ sizeMax

/-- `iter_zip_with_view::cursor`. -/
structure ZipCursor where
  its : List Nat
  deriving DecidableEq, Repr

namespace IterZipWithView

def min_ (t u : Int) : Int := if u < t then u else t

def max_ (t u : Int) : Int := if u < t then t else u

def zipCardinality (state value : Int) : Int :=
  if 0 ≤ state ∧ 0 ≤ value then min_ state value
  else if 0 ≤ state ∧ value = infinite then state
  else if state = infinite ∧ 0 ≤ value then value
  else if state = finite ∨ value = finite then finite
  else if state = unknown ∨ value = unknown then unknown
  else infinite

variable {α γ : Type}

def lens (v : IterZipWithView α γ) : List Nat := v.rngs.map Base.length

def cardinality (v : IterZipWithView α γ) : Int :=
  (v.rngs.map Base.cardinality).foldl zipCardinality infinite

def beginCursor (v : IterZipWithView α γ) : ZipCursor := ⟨v.rngs.map fun _ => 0⟩

def endCursor (v : IterZipWithView α γ) : ZipCursor := ⟨v.rngs.map Base.length⟩

/-- The elements a tuple of iterators points at. -/
def derefEach : List (Base α) → List Nat → Exec (List α)
  | b :: bs, it :: its => do
    let x ← deref b.elems it
    let xs ← derefEach bs its
    .ok (x :: xs)
  | _, _ => .ok []

/-- `tuple_apply(fun_, its_)` with `fun_` an `indirected` function. -/
def read (v : IterZipWithView α γ) (c : ZipCursor) : Exec γ := do
  let xs ← derefEach v.rngs c.its
  .ok (v.fn xs)

def next (v : IterZipWithView α γ) (c : ZipCursor) : Exec ZipCursor := do
  let its ← stepEach incrTo v.lens c.its
  .ok { its }

def equal (c that : ZipCursor) : Bool :=
  (List.zipWith (· == ·) c.its that.its).foldl (fun a b => a || b) false

def prev (v : IterZipWithView α γ) (c : ZipCursor) : Exec ZipCursor := do
  let its ← stepEach decr v.lens c.its
  .ok { its }

def advance (v : IterZipWithView α γ) (c : ZipCursor) (n : Int) : Exec ZipCursor := do
  let its ← stepEach (jump n) v.lens c.its
  .ok { its }

def distanceTo (v : IterZipWithView α γ) (c that : ZipCursor) : Int :=
  let distances := List.zipWith (fun t u : Nat => (u : Int) - t) c.its that.its
  let firstSize := (that.its.headD 0 : Int) - c.its.headD 0
  if firstSize = 0 then 0
  else if 0 < firstSize then distances.foldl min_ v.differenceMax
  else distances.foldl max_ (-v.differenceMax - 1)

def size (v : IterZipWithView α γ) : Nat :=
  if 0 ≤ v.cardinality then v.cardinality.toNat
  else ((v.lens.map fun len : Nat => (len : Int)).foldl min_ v.sizeMax).toNat

/-- The elements of all bases at one index, combined. -/
def element (v : IterZipWithView α γ) (k : Nat) : Option γ :=
  (v.rngs.mapM fun b => b.elems[k]?).map v.fn

def traversal (v : IterZipWithView α γ) : Traversal ZipCursor γ where
  beginCursor := v.beginCursor
  endCursor := v.endCursor
  its := ZipCursor.its
  read := v.read
  next := v.next
  prev := v.prev
  advance := v.advance
  equal := equal
  distanceTo := v.distanceTo
  size := v.size

/-! ## Folds over the components -/

/-- A value that absorbs all those folded over and is one of them. -/
theorem foldl_of_absorbing {τ : Type} {f : τ → τ → τ} {P : τ → Prop} {d : τ}
    (hclosed : ∀ a b, P a → P b → P (f a b)) (hleft : ∀ a, P a → f d a = d)
    (hright : ∀ a, P a → f a d = d) {l : List τ} {init : τ} (hinit : P init)
    (hl : ∀ x ∈ l, P x) (hmem : init = d ∨ d ∈ l) : l.foldl f init = d := by
  induction l generalizing init with
  | nil => exact hmem.resolve_right (by simp)
  | cons x l ih =>
    have hx := hl x (List.mem_cons_self ..)
    rw [List.foldl_cons]
    refine ih (hclosed init x hinit hx) (fun y hy => hl y (List.mem_cons_of_mem _ hy)) ?_
    obtain rfl | hmem := hmem
    · exact .inl (hleft x hx)
    obtain rfl | hmem := List.mem_cons.mp hmem
    · exact .inl (hright init hinit)
    · exact .inr hmem

/-- The least of the values folded over. -/
theorem foldl_min {l : List Int} {init d : Int} (hinit : d ≤ init) (hle : ∀ x ∈ l, d ≤ x)
    (hmem : init = d ∨ d ∈ l) : l.foldl min_ init = d := by
  refine foldl_of_absorbing ?_ ?_ ?_ hinit hle hmem
  · intro a b ha hb
    unfold min_
    split <;> omega
  · intro a ha
    unfold min_
    split <;> omega
  · intro a ha
    unfold min_
    split <;> omega

/-- The greatest of the values folded over. -/
theorem foldl_max {l : List Int} {init d : Int} (hinit : init ≤ d) (hle : ∀ x ∈ l, x ≤ d)
    (hmem : init = d ∨ d ∈ l) : l.foldl max_ init = d := by
  refine foldl_of_absorbing (P := (· ≤ d)) ?_ ?_ ?_ hinit hle hmem
  · intro a b ha hb
    unfold max_
    split <;> omega
  · intro a ha
    unfold max_
    split <;> omega
  · intro a ha
    unfold max_
    split <;> omega

theorem foldl_or (l : List Bool) (b : Bool) :
    l.foldl (fun a b => a || b) b = (b || l.any id) := by
  induction l generalizing b with
  | nil => simp
  | cons x l ih => rw [List.foldl_cons, ih, List.any_cons, id, Bool.or_assoc]

/-! ## The static cardinality -/

/-- One component of unknown size leaves the size unknown. -/
theorem zipCardinality_unsized {s v : Int}
    (h : (s = finite ∨ s = unknown) ∨ v = finite ∨ v = unknown)
    (hv : v ≠ infinite) :
    zipCardinality s v = finite ∨ zipCardinality s v = unknown := by
  have hstatic : ¬ (0 ≤ s ∧ 0 ≤ v) := by
    simp only [finite, unknown] at h
    omega
  have hinf : ¬ (s = infinite ∧ 0 ≤ v) := by
    simp only [finite, unknown] at h
    simp only [infinite]
    omega
  rw [zipCardinality, if_neg hstatic, if_neg (fun hand => hv hand.2), if_neg hinf]
  split
  next => exact .inl rfl
  next hfin =>
    rw [if_pos (by simp only [not_or] at hfin; tauto)]
    exact .inr rfl

theorem base_cardinality_ne (b : Base α) : b.cardinality ≠ infinite := by
  have h := b.cardinality_ok
  simp only [finite, unknown] at h
  simp only [infinite]
  omega

theorem foldl_unsized (bs : List (Base α)) {state : Int} (hs : state = finite ∨ state = unknown) :
    (bs.map Base.cardinality).foldl zipCardinality state < 0 := by
  induction bs generalizing state with
  | nil =>
    simp only [finite, unknown] at hs
    simp only [List.map_nil, List.foldl_nil]
    omega
  | cons b bs ih => exact ih (zipCardinality_unsized (.inl hs) (base_cardinality_ne b))

/-- A fold that stays static is the least of its values. -/
theorem foldl_static {bs : List (Base α)} {state : Int} (hs : 0 ≤ state)
    (h : 0 ≤ (bs.map Base.cardinality).foldl zipCardinality state) :
    (bs.map Base.cardinality).foldl zipCardinality state =
      (bs.map fun b => (b.length : Int)).foldl min_ state := by
  induction bs generalizing state with
  | nil => rfl
  | cons b bs ih =>
    simp only [List.map_cons, List.foldl_cons] at h ⊢
    obtain hstatic | hunsized := b.cardinality_ok
    · have hstep : zipCardinality state b.cardinality = min_ state b.length := by
        rw [zipCardinality, if_pos ⟨hs, by omega⟩, hstatic]
        rfl
      rw [hstep] at h ⊢
      refine ih ?_ h
      unfold min_
      split <;> omega
    · have hneg := zipCardinality_unsized (s := state) (.inr hunsized) (base_cardinality_ne b)
      have := foldl_unsized bs hneg
      omega

theorem lens_ne_nil (v : IterZipWithView α γ) : v.lens ≠ [] := by
  simp only [lens, ne_eq, List.map_eq_nil_iff]
  exact v.nonempty

theorem mem_lens_le (v : IterZipWithView α γ) {len : Nat} (h : len ∈ v.lens) :
    len ≤ v.differenceMax := by
  obtain ⟨b, hb, rfl⟩ := List.mem_map.mp h
  exact v.length_le b hb

theorem cardinality_static (v : IterZipWithView α γ) (h : 0 ≤ v.cardinality) :
    v.cardinality = minLength v.lens := by
  have hmem := minLength_mem v.lens_ne_nil
  have hle : ∀ len ∈ v.lens, minLength v.lens ≤ len := fun len => minLength_le
  unfold cardinality at h ⊢
  unfold lens at hmem hle ⊢
  generalize v.rngs = bs at h hmem hle ⊢
  cases bs with
  | nil => simp at hmem
  | cons b bs =>
    simp only [List.map_cons, List.foldl_cons] at h ⊢
    -- folding starts at `infinite`, which the first static value replaces
    obtain hstatic | hunsized := b.cardinality_ok
    · have hstep : zipCardinality infinite b.cardinality = b.length := by
        have hpos : 0 ≤ b.cardinality := by omega
        rw [zipCardinality, if_neg (fun h => absurd h.1 (by decide)),
          if_neg (fun h => absurd h.1 (by decide)), if_pos ⟨rfl, hpos⟩, hstatic]
        rfl
      rw [hstep] at h ⊢
      rw [foldl_static (Int.natCast_nonneg _) h]
      refine foldl_min ?_ ?_ ?_
      · have := hle b.length (by simp)
        simp only [List.map_cons] at this
        omega
      · intro x hx
        obtain ⟨b', hb', rfl⟩ := List.mem_map.mp hx
        have := hle b'.length (List.mem_map.mpr ⟨b', List.mem_cons_of_mem _ hb', rfl⟩)
        simp only [List.map_cons] at this
        omega
      · simp only [List.map_cons, List.mem_cons] at hmem
        obtain heq | hin := hmem
        · exact .inl (by rw [heq])
        · obtain ⟨b', hb', heq⟩ := List.mem_map.mp hin
          exact .inr (List.mem_map.mpr ⟨b', hb', by rw [heq]⟩)
    · have hneg := zipCardinality_unsized (s := infinite) (.inr hunsized) (base_cardinality_ne b)
      have := foldl_unsized bs hneg
      omega

theorem size_eq (v : IterZipWithView α γ) : v.size = minLength v.lens := by
  unfold size
  split
  next hcard => rw [v.cardinality_static hcard, Int.toNat_natCast]
  next =>
    have hmem := minLength_mem v.lens_ne_nil
    have hmin : (v.lens.map fun len : Nat => (len : Int)).foldl min_ v.sizeMax =
        minLength v.lens := by
      refine foldl_min ?_ ?_ (.inr (List.mem_map.mpr ⟨_, hmem, rfl⟩))
      · have := v.mem_lens_le hmem
        have := v.difference_le
        omega
      · intro x hx
        obtain ⟨len, hlen, rfl⟩ := List.mem_map.mp hx
        have := minLength_le hlen
        omega
    rw [hmin, Int.toNat_natCast]

/-! ## The view as a product traversal -/

theorem map_its (x : Exec (List Nat)) :
    (x >>= fun its => Except.ok (ZipCursor.mk its)).map ZipCursor.its = x := by
  cases x <;> rfl

theorem lockstep (v : IterZipWithView α γ) : Traversal.LockstepOver v.traversal v.lens where
  nonempty := v.lens_ne_nil
  begin_its := by simp only [traversal, beginCursor, lens, List.map_map, Function.comp_def]
  end_its := by simp only [traversal, endCursor, lens, List.map_id]
  next_its c := map_its _
  prev_its c := map_its _
  advance_its c n := map_its _
  equal_its c d := by simp only [traversal, equal, foldl_or, Bool.false_or]

theorem derefEach_at {bs : List (Base α)} {k : Nat} (h : ∀ b ∈ bs, k < b.length) :
    ∃ xs, bs.mapM (fun b => b.elems[k]?) = some xs ∧
      derefEach bs ((bs.map Base.length).map fun _ => k) = .ok xs := by
  induction bs with
  | nil => exact ⟨[], rfl, rfl⟩
  | cons b bs ih =>
    obtain ⟨xs, hxs, hrun⟩ := ih fun b' hb' => h b' (List.mem_cons_of_mem _ hb')
    have hb : k < b.elems.length := h b (List.mem_cons_self ..)
    refine ⟨b.elems[k] :: xs, ?_, ?_⟩
    · simp [List.mapM_cons, hb, hxs]
    · have hread : deref b.elems k = .ok b.elems[k] := by simp [deref, hb]
      simp only [List.map_cons, derefEach, hread, hrun, exec_bind_ok]

theorem read_at (v : IterZipWithView α γ) {k : Nat} (hk : k < minLength v.lens) {c : ZipCursor}
    (hc : c.its = v.lens.map fun _ => k) : ∃ x, v.element k = some x ∧ v.read c = .ok x := by
  have hlt : ∀ b ∈ v.rngs, k < b.length := by
    intro b hb
    have hmem : b.length ∈ v.lens := List.mem_map.mpr ⟨b, hb, rfl⟩
    exact Nat.lt_of_lt_of_le hk (minLength_le hmem)
  obtain ⟨xs, hxs, hrun⟩ := derefEach_at hlt
  refine ⟨v.fn xs, ?_, ?_⟩
  · simp only [element, hxs, Option.map_some]
  · rw [read, hc, lens, hrun, exec_bind_ok]

/-- Forward the view is what it should be, whatever the lengths. -/
theorem forwardLaw (v : IterZipWithView α γ) :
    Traversal.ForwardLaw v.traversal (minLength v.lens) v.element :=
  v.lockstep.forwardLaw v.size_eq fun _ hj _ hc => v.read_at hj hc

theorem headD_map {ls : List Nat} {g : Nat → Nat} (h : ls ≠ []) :
    ∃ len ∈ ls, (ls.map g).headD 0 = g len := by
  cases ls with
  | nil => exact absurd rfl h
  | cons len ls => exact ⟨len, List.mem_cons_self .., rfl⟩

/-- The distance is the common difference of the components, if they have one. -/
theorem distanceTo_const (v : IterZipWithView α γ) {c d : ZipCursor} {i j : Nat}
    (hc : c.its = v.lens.map fun _ => i) (hd : d.its = v.lens.map fun _ => j)
    (hi : i ≤ v.differenceMax) (hj : j ≤ v.differenceMax) : v.distanceTo c d = (j : Int) - i := by
  obtain ⟨_, _, hheadc⟩ := headD_map (g := fun _ => i) v.lens_ne_nil
  obtain ⟨_, _, hheadd⟩ := headD_map (g := fun _ => j) v.lens_ne_nil
  unfold distanceTo
  simp only [hc, hd, hheadc, hheadd, List.zipWith_map, List.zipWith_self]
  have hmem : (j : Int) - i ∈ v.lens.map fun _ => (j : Int) - i :=
    List.mem_map.mpr ⟨_, minLength_mem v.lens_ne_nil, rfl⟩
  have hall : ∀ x ∈ v.lens.map fun _ => (j : Int) - i, x = (j : Int) - i := by
    intro x hx
    obtain ⟨_, _, rfl⟩ := List.mem_map.mp hx
    rfl
  split
  · omega
  · split
    · exact foldl_min (by omega) (fun x hx => Int.le_of_eq (hall x hx).symm) (.inr hmem)
    · exact foldl_max (by omega) (fun x hx => Int.le_of_eq (hall x hx)) (.inr hmem)

/-- With an empty component, begin and end are at distance zero both ways. -/
theorem distanceTo_empty (v : IterZipWithView α γ) (hzero : minLength v.lens = 0)
    {c d : ZipCursor} (hc : c.its = (v.lens.map fun _ => 0) ∨ c.its = v.lens.map id)
    (hd : d.its = (v.lens.map fun _ => 0) ∨ d.its = v.lens.map id) : v.distanceTo c d = 0 := by
  have hmem := minLength_mem v.lens_ne_nil
  obtain ⟨_, _, hhead0⟩ := headD_map (g := fun _ => 0) v.lens_ne_nil
  obtain ⟨_, _, hhead⟩ := headD_map (g := id) v.lens_ne_nil
  rw [hzero] at hmem
  obtain hc | hc := hc <;> obtain hd | hd := hd
  · rw [v.distanceTo_const hc hd (Nat.zero_le _) (Nat.zero_le _)]
    rfl
  · unfold distanceTo
    simp only [hc, hd, hhead0, hhead, List.zipWith_map, List.zipWith_self, id]
    split
    · rfl
    · rw [if_pos (by omega)]
      refine foldl_min (by omega) (fun x hx => ?_) (.inr (List.mem_map.mpr ⟨0, hmem, rfl⟩))
      obtain ⟨len, _, rfl⟩ := List.mem_map.mp hx
      omega
  · unfold distanceTo
    simp only [hc, hd, hhead0, hhead, List.zipWith_map, List.zipWith_self, id]
    split
    · rfl
    · rw [if_neg (by omega)]
      refine foldl_max (by omega) (fun x hx => ?_) (.inr (List.mem_map.mpr ⟨0, hmem, rfl⟩))
      obtain ⟨len, _, rfl⟩ := List.mem_map.mp hx
      omega
  · unfold distanceTo
    simp only [hc, hd, Int.sub_self, if_true]

theorem jumpLaw_of_aligned (v : IterZipWithView α γ) (h : Aligned v.lens) :
    Traversal.JumpLaw v.traversal (minLength v.lens) := by
  obtain hsame | hzero := h
  · have hend : v.lens.map id = v.lens.map fun _ => minLength v.lens :=
      List.map_inj_left.mpr fun len hlen => hsame len hlen
    apply v.lockstep.jumpLaw_of_measure (.inl hsame) (fun c => (c.its.headD 0 : Nat))
    have hconst : ∀ c, Traversal.OnPath v.traversal (minLength v.lens) c →
        ∃ j ≤ v.differenceMax, c.its = v.lens.map fun _ => j := by
      intro c hc
      have hmax := v.mem_lens_le (minLength_mem v.lens_ne_nil)
      obtain ⟨j, hj, hits⟩ | hits := v.lockstep.onPath_its hc
      · exact ⟨j, Nat.le_trans hj hmax, hits⟩
      · exact ⟨minLength v.lens, hmax, hits.trans hend⟩
    intro p q hp hq
    obtain ⟨i, hi, hpits⟩ := hconst p hp
    obtain ⟨j, hj, hqits⟩ := hconst q hq
    obtain ⟨_, _, hheadp⟩ := headD_map (g := fun _ => i) v.lens_ne_nil
    obtain ⟨_, _, hheadq⟩ := headD_map (g := fun _ => j) v.lens_ne_nil
    simp only [traversal, v.distanceTo_const hpits hqits hi hj, hpits, hqits, hheadp, hheadq]
  · apply v.lockstep.jumpLaw_of_measure (.inr hzero) (fun _ => 0)
    have hends : ∀ c, Traversal.OnPath v.traversal (minLength v.lens) c →
        c.its = (v.lens.map fun _ => 0) ∨ c.its = v.lens.map id := by
      intro c hc
      obtain ⟨j, hj, hits⟩ | hits := v.lockstep.onPath_its hc
      · rw [hzero] at hj
        cases Nat.le_zero.mp hj
        exact .inl hits
      · exact .inr hits
    intro p q hp hq
    exact v.distanceTo_empty hzero (hends p hp) (hends q hq)

theorem jumpLaw_iff (v : IterZipWithView α γ) :
    Traversal.JumpLaw v.traversal (minLength v.lens) ↔ Aligned v.lens :=
  ⟨v.lockstep.aligned_of_jumpLaw, v.jumpLaw_of_aligned⟩

end IterZipWithView

end EARanges.View
