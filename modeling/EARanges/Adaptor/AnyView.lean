import EARanges.Adaptor.Interface

/-!
# `any_view`

view/any_view.hpp, for forward ranges and above: a range behind virtual functions, which offers
what its category asks for and no more. The cursor owns an iterator of the range, the sentinel
only points at the view and asks it to compare.
-/
namespace EARanges.Adaptor
open EARanges.Support

variable {α : Type}

/-- `enum class category`, as the bits of its underlying integer. -/
abbrev AnyCategory := Nat

namespace AnyCategory

def none : AnyCategory := 0
def input : AnyCategory := 1
def forward : AnyCategory := 3
def bidirectional : AnyCategory := 7
def randomAccess : AnyCategory := 15
def sized : AnyCategory := 16

/-- `(Cat & wanted) == wanted`. -/
def has (cat wanted : AnyCategory) : Bool := cat &&& wanted == wanted

/-- `get_categories<Rng>()` of a forward range. -/
def ofCapabilities (caps : Capabilities) : AnyCategory :=
  input ||| forward ||| (if caps.bidirectional then bidirectional else none) |||
    (if caps.randomAccess then randomAccess else none) ||| if caps.sized then sized else none

theorem has_trans {cat wanted wanted' : AnyCategory} (h : has cat wanted = true)
    (h' : has wanted wanted' = true) : has cat wanted' = true := by
  have h := eq_of_beq h
  have h' := eq_of_beq h'
  rw [has, beq_iff_eq]
  calc cat &&& wanted' = cat &&& (wanted &&& wanted') := by rw [h']
    _ = wanted &&& wanted' := by rw [← Nat.and_assoc, h]
    _ = wanted' := h'

variable {caps : Capabilities}

theorem has_bidirectional (h : has (ofCapabilities caps) bidirectional = true) :
    caps.bidirectional = true := by
  have hrandom := caps.bidirectional_of_random
  revert h hrandom
  rw [ofCapabilities]
  cases caps.bidirectional <;> cases caps.randomAccess <;> cases caps.sized <;> decide

theorem has_randomAccess (h : has (ofCapabilities caps) randomAccess = true) :
    caps.randomAccess = true := by
  revert h
  rw [ofCapabilities]
  cases caps.bidirectional <;> cases caps.randomAccess <;> cases caps.sized <;> decide

theorem has_sized (h : has (ofCapabilities caps) sized = true) : caps.sized = true := by
  revert h
  rw [ofCapabilities]
  cases caps.bidirectional <;> cases caps.randomAccess <;> cases caps.sized <;> decide

end AnyCategory

section
variable (R : RangeModel α)

/-- `any_view_sentinel_impl`: the constructor keeps the sentinel unless `ranges::end` takes a
constant range. A constructor that throws leaves no view. -/
def anyViewImpl (constEnd : Bool) : R.State × Option R.Sent :=
  if constEnd then (R.fresh, none)
  else
    match R.end_ R.fresh with
    | .ok (last, s) => (s, some last)
    | .error _ => (R.fresh, none)

/-- `any_view_impl::at_end`. -/
def atEnd (constEnd : Bool) (it : R.Iter) : Effect (R.State × Option R.Sent) Bool :=
  if constEnd then
    .onFst do
      let last ← R.end_
      R.reached it last
  else fun s =>
    match s.2 with
    | some last => Effect.onFst (R.reached it last) s
    | none => .error .fault

/-- `any_view<Ref, Cat>` of a range. -/
def anyView (cat : AnyCategory) (constEnd : Bool) : RangeModel α where
  State := R.State × Option R.Sent
  Iter := R.Iter
  Sent := Unit
  caps := {
    bidirectional := cat.has .bidirectional
    randomAccess := cat.has .randomAccess
    common := false
    sized := cat.has .sized
    sizedIter := cat.has .randomAccess
    sizedSentinel := false
    bidirectional_of_random := fun h => AnyCategory.has_trans h rfl
    sizedIter_of_random := id
    sentinel_of_common := nofun }
  fresh := anyViewImpl R constEnd
  begin := .onFst R.begin
  end_ := pure ()
  asIter _ := .error .fault
  read it := .onFst (R.read it)
  next it := .onFst (R.next it)
  prev it := .onFst (R.prev it)
  equal it that := .onFst (R.equal that it)
  reached it _ := atEnd R constEnd it
  advance n it := .onFst (R.advance n it)
  distanceTo it that := .onFst (R.distanceTo it that)
  distanceToEnd _ _ := Effect.fault
  size := .onFst R.size
  jumpHook := none

end

section
variable {R : RangeModel α} {xs : List α} {Inv : Phase → R.State → Prop}
  {At : Nat → R.Iter → Prop} {AtEnd : R.Sent → Prop} {constEnd : Bool}

/-- The sentinel that the view keeps, if it has to keep one. -/
def Keeps {ε : Type} (constEnd : Bool) (AtEnd : ε → Prop) (last : Option ε) : Prop :=
  constEnd = true ∨ Filled AtEnd last

theorem anyViewImpl_inv (h : Presents R xs Inv At AtEnd) :
    Both (Inv .idle) (Keeps constEnd AtEnd) (anyViewImpl R constEnd) := by
  cases constEnd with
  | true => exact ⟨h.fresh, .inl rfl⟩
  | false =>
    obtain ⟨last, s, hrun, hs, hlast⟩ := h.end_ .idle _ h.fresh
    rw [anyViewImpl, if_neg Bool.false_ne_true, hrun]
    exact ⟨hs, .inr ⟨last, rfl, hlast⟩⟩

theorem atEnd_gives (h : Presents R xs Inv At AtEnd) {i : Nat} {it : R.Iter} (hit : At i it) :
    Gives (Both (Inv .live) (Keeps constEnd AtEnd)) (atEnd R constEnd it)
      (· = decide (i = xs.length)) := by
  cases constEnd with
  | true => exact Gives.onFst ((h.end_ .live).bind fun last hlast => h.reached hit hlast)
  | false =>
    rintro ⟨s, kept⟩ ⟨hs, hkept⟩
    obtain ⟨last, rfl, hlast⟩ := hkept.resolve_left Bool.false_ne_true
    exact Gives.onFst (h.reached hit hlast) (s, some last) ⟨hs, hkept⟩

theorem anyView_presents (h : Presents R xs Inv At AtEnd) {cat : AnyCategory}
    (hcat : (AnyCategory.ofCapabilities R.caps).has cat = true) :
    Presents (anyView R cat constEnd) xs (fun phase => Both (Inv phase) (Keeps constEnd AtEnd)) At
      fun _ => True where
  fresh := anyViewImpl_inv h
  idle s hs := ⟨h.idle s.1 hs.1, hs.2⟩
  le := h.le
  begin := h.begin.onFst
  end_ _ := .pure trivial
  endLive := nofun
  asIter := nofun
  read hit hx := (h.read hit hx).onFst
  next hit hlt := (h.next hit hlt).onFst
  prev hbidir _ _ hit :=
    (h.prev (AnyCategory.has_bidirectional (AnyCategory.has_trans hcat hbidir)) hit).onFst
  equal {i j c d} hc hd := by
    apply (h.equal hd hc).onFst.mono
    rintro b rfl
    exact decide_eq_decide.mpr eq_comm
  reached hit _ := atEnd_gives h hit
  advance hrandom _ _ _ _ hit hn hj :=
    (h.advance (AnyCategory.has_randomAccess (AnyCategory.has_trans hcat hrandom)) hit hn hj).onFst
  distanceTo hrandom _ _ _ _ hc hd := by
    have hbase := AnyCategory.has_randomAccess (AnyCategory.has_trans hcat hrandom)
    exact (h.distanceTo (R.caps.sizedIter_of_random hbase) hc hd).onFst
  distanceToEnd := nofun
  size hsized phase :=
    (h.size (AnyCategory.has_sized (AnyCategory.has_trans hcat hsized)) phase).onFst
  jumpHook := nofun

theorem lawful_anyView (h : Lawful R xs) {cat : AnyCategory}
    (hcat : (AnyCategory.ofCapabilities R.caps).has cat = true) (constEnd : Bool) :
    Lawful (anyView R cat constEnd) xs := by
  obtain ⟨Inv, At, AtEnd, h⟩ := h
  exact ⟨_, _, _, anyView_presents h hcat⟩

end

end EARanges.Adaptor
