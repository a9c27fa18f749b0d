import EARanges.Adaptor.FindIfNot

/-!
# Views of the positions that are kept

What `remove_if_view` and `adjacent_filter_view` share: the iterators are those of the base that
stand on a position which is kept, or at the end. They cannot be subtracted, and the view has no
size.
-/
namespace EARanges.Adaptor
open EARanges.Support

variable {α : Type}

/-- A view with iterators of the base, which finds the next and the previous one on its own. -/
def keptView (R : RangeModel α) {κ : Type} (caches : κ) (begin : Effect (R.State × κ) R.Iter)
    (end_ : Effect (R.State × κ) R.Sent) (next prev : R.Iter → Effect (R.State × κ) R.Iter) :
    RangeModel α where
  State := R.State × κ
  Iter := R.Iter
  Sent := R.Sent
  caps := {
    bidirectional := R.caps.bidirectional
    randomAccess := false
    common := R.caps.common
    sized := false
    sizedIter := false
    sizedSentinel := false
    bidirectional_of_random := nofun
    sizedIter_of_random := fun h => h
    sentinel_of_common := fun _ => rfl }
  fresh := (R.fresh, caches)
  begin := begin
  end_ := end_
  asIter := R.asIter
  read it := .onFst (R.read it)
  next := next
  prev := prev
  equal left right := .onFst (R.equal left right)
  reached it last := .onFst (R.reached it last)
  advance _ _ := Effect.fault
  distanceTo _ _ := Effect.fault
  distanceToEnd _ _ := Effect.fault
  size := Effect.fault
  jumpHook := none

/-- The iterator stands on the `i`-th position that is kept. -/
def Passes {ι : Type} (xs : List α) (keep : Nat → Bool) (At : Nat → ι → Prop) (i : Nat) (c : ι) :
    Prop := ∃ s, PassNumber keep xs i s ∧ At s c

/-- The first iterator that the view hands out. -/
def FirstKept {ι : Type} (xs : List α) (keep : Nat → Bool) (At : Nat → ι → Prop) (c : ι) : Prop :=
  ∃ t, FirstFrom keep xs 0 t ∧ At t c

variable {R : RangeModel α} {xs : List α} {Inv : Phase → R.State → Prop}
  {At : Nat → R.Iter → Prop} {AtEnd : R.Sent → Prop}

theorem keptView_presents (h : Presents R xs Inv At AtEnd) (keep : Nat → Bool) {κ : Type}
    {caches : κ} {begin : Effect (R.State × κ) R.Iter} {end_ : Effect (R.State × κ) R.Sent}
    {next prev : R.Iter → Effect (R.State × κ) R.Iter} {Idle : R.State × κ → Prop}
    {Own : κ → Prop} (hfresh : Idle (R.fresh, caches))
    (hidle : ∀ s, Both (Inv .live) Own s → Idle s)
    (hbegin : Yields Idle begin (Both (Inv .live) Own) (FirstKept xs keep At))
    (hend : ∀ phase, Gives (Over Inv Idle Own phase) end_ AtEnd)
    (hendLive : R.caps.common = true → R.caps.bidirectional = true →
      Yields Idle end_ (Both (Inv .live) Own) AtEnd)
    (hnext : ∀ {s t it}, At s it → s < xs.length → FirstFrom keep xs (s + 1) t →
      Gives (Both (Inv .live) Own) (next it) (At t))
    (hprev : R.caps.bidirectional = true → ∀ {i it}, Passes xs keep At (i + 1) it →
      Gives (Both (Inv .live) Own) (prev it) (Passes xs keep At i)) :
    Presents (keptView R caches begin end_ next prev) (keptAt keep xs) (Over Inv Idle Own)
      (Passes xs keep At) AtEnd where
  fresh := hfresh
  idle := hidle
  le := fun ⟨_, hs, _⟩ => hs.index_le
  begin := hbegin.mono (fun _ hs => hs) fun _ ⟨t, ht, hc⟩ => ⟨t, ht.number_zero, hc⟩
  end_ := hend
  endLive := hendLive
  asIter hcommon e he := by
    obtain ⟨c, hc, hat⟩ := h.asIter hcommon he
    exact ⟨c, hc, xs.length, passNumber_end _ xs, hat⟩
  read := fun ⟨s, hs, hc⟩ hx => Gives.over (h.read hc (hs.get hx))
  next := fun ⟨s, hs, hc⟩ hi => by
    have hlt := (hs.keeps hi).1
    obtain ⟨t, ht⟩ := exists_firstFrom keep (Nat.succ_le_of_lt hlt)
    exact (hnext hc hlt ht).mono fun c' hc' => ⟨t, hs.next hi ht, hc'⟩
  prev hbidir _ _ hit := hprev hbidir hit
  equal := fun ⟨s, hs, hc⟩ ⟨t, ht, hd⟩ => by
    apply Gives.over
    apply (h.equal hc hd).mono
    rintro b rfl
    refine decide_eq_decide.mpr ⟨fun hst => ?_, fun hij => ?_⟩
    · rw [← hs.number, ← ht.number, hst]
    · subst hij
      exact hs.unique ht
  reached := fun ⟨s, hs, hc⟩ he => by
    apply Gives.over
    apply (h.reached hc he).mono
    rintro b rfl
    exact decide_eq_decide.mpr hs.end_iff
  advance := nofun
  distanceTo := nofun
  distanceToEnd := nofun
  size := nofun
  jumpHook := nofun

end EARanges.Adaptor
