import EARanges.Adaptor.Interface
import EARanges.Support.InPlace
import EARanges.Support.Lockstep

/-!
# Where pipelines begin: `ref_view`, `repeat_n_view`, `iota_view`

view/ref.hpp, view/repeat_n.hpp and view/iota.hpp. A container offers what its type offers; the
other two are random-access ranges, one of which ends at a `default_sentinel` and cannot be
subtracted from it, and one of which has no size but that of its ends.
-/
namespace EARanges.Adaptor
open EARanges.Support

variable {α : Type}

/-- What the type of an iterator may offer or not. -/
def ifOffered {ρ : Type} (offered : Bool) (x : Exec ρ) : Effect Unit ρ :=
  if offered then .ofExec x else Effect.fault

/-- `ref_view` of a container with the elements `xs`. -/
def sequence (caps : Capabilities) (xs : List α) : RangeModel α where
  State := Unit
  Iter := Nat
  Sent := Unit
  caps := caps
  fresh := ()
  begin := pure 0
  end_ := pure ()
  asIter _ := if caps.common then .ok xs.length else .error .fault
  read it := .ofExec (deref xs it)
  next it := .ofExec (incr xs it)
  prev it := ifOffered caps.bidirectional (stepBack it)
  equal left right := pure (decide (left = right))
  reached it _ := pure (decide (it = xs.length))
  advance n it := ifOffered caps.randomAccess (jump n xs.length it)
  distanceTo left right := ifOffered caps.sizedIter (.ok ((right : Int) - left))
  distanceToEnd it _ := ifOffered caps.sizedSentinel (.ok ((xs.length : Int) - it))
  size := ifOffered caps.sized (.ok xs.length)
  jumpHook := none

/-- `repeat_n_view`, whose cursor holds what is left of the count. -/
def repeatN (value : α) (n : Nat) : RangeModel α where
  State := Unit
  Iter := Int
  Sent := Unit
  caps := {
    bidirectional := true
    randomAccess := true
    common := false
    sized := true
    sizedIter := true
    sizedSentinel := false
    bidirectional_of_random := fun _ => rfl
    sizedIter_of_random := fun _ => rfl
    sentinel_of_common := fun h => h }
  fresh := ()
  begin := pure (n : Int)
  end_ := pure ()
  asIter _ := .error .fault
  read _ := pure value
  next it := do
    Effect.require (it ≠ 0)
    pure (it - 1)
  prev it := pure (it + 1)
  equal left right := pure (decide (left = right))
  reached it _ := pure (decide (it = 0))
  advance k it := pure (it - k)
  distanceTo left right := pure (left - right)
  distanceToEnd _ _ := Effect.fault
  size := pure n
  jumpHook := none

/-- `iota_view` between two integers of one type; the constructor checks their order. -/
def iota (from_ to_ : Int) : RangeModel Int where
  State := Unit
  Iter := Int
  Sent := Int
  caps := {
    bidirectional := true
    randomAccess := true
    common := true
    sized := true
    sizedIter := true
    sizedSentinel := true
    bidirectional_of_random := fun _ => rfl
    sizedIter_of_random := fun _ => rfl
    sentinel_of_common := fun _ => rfl }
  fresh := ()
  begin := pure from_
  end_ := pure to_
  asIter it := .ok it
  read it := pure it
  next it := pure (it + 1)
  prev it := pure (it - 1)
  equal left right := pure (decide (left = right))
  reached it last := pure (decide (it = last))
  advance n it := pure (it + n)
  distanceTo left right := pure (right - left)
  distanceToEnd it last := pure (last - it)
  size := sizeByEnds (pure from_) (pure to_) fun it last => pure (last - it)
  jumpHook := none

theorem ifOffered_gives {ρ : Type} {P : Unit → Prop} {offered : Bool} (h : offered = true)
    {x : Exec ρ} {r : ρ} (hx : x = .ok r) {Q : ρ → Prop} (hr : Q r) :
    Gives P (ifOffered offered x) Q := by
  rw [ifOffered, if_pos h]
  exact .ofExec hx hr

theorem lawful_sequence (caps : Capabilities) (xs : List α) : Lawful (sequence caps xs) xs :=
  ⟨fun _ _ => True, fun i it => it = i ∧ i ≤ xs.length, fun _ => True, {
    fresh := trivial
    idle := fun _ _ => trivial
    le := fun hc => hc.2
    begin := Gives.pure ⟨rfl, Nat.zero_le _⟩
    end_ := fun _ => .pure trivial
    endLive := fun _ _ => Gives.pure trivial
    asIter := fun hcommon _ _ => ⟨xs.length, if_pos hcommon, rfl, Nat.le_refl _⟩
    read := by
      rintro i _ x ⟨rfl, _⟩ hx
      exact .ofExec (deref_of_some hx) rfl
    next := by
      rintro i _ ⟨rfl, _⟩ hi
      exact .ofExec (incr_ok hi) ⟨rfl, hi⟩
    prev := by
      rintro hbidir i _ ⟨rfl, hle⟩
      exact ifOffered_gives hbidir (stepBack_succ i) ⟨rfl, Nat.le_of_succ_le hle⟩
    equal := by
      rintro i j _ _ ⟨rfl, _⟩ ⟨rfl, _⟩
      exact .pure rfl
    reached := by
      rintro i _ e ⟨rfl, _⟩ _
      exact .pure rfl
    advance := by
      rintro hrandom i j n _ ⟨rfl, _⟩ hn hj
      exact ifOffered_gives hrandom (jump_eq hn hj) ⟨rfl, hj⟩
    distanceTo := by
      rintro hsized i j _ _ ⟨rfl, _⟩ ⟨rfl, _⟩
      exact ifOffered_gives hsized rfl rfl
    distanceToEnd := by
      rintro hsized i _ e ⟨rfl, _⟩ _
      exact ifOffered_gives hsized rfl rfl
    size := fun hsized _ => ifOffered_gives hsized rfl rfl
    jumpHook := nofun }⟩

theorem lawful_repeatN (value : α) (n : Nat) : Lawful (repeatN value n) (List.replicate n value) :=
  ⟨fun _ _ => True, fun i (it : Int) => it = (n : Int) - i ∧ i ≤ n, fun _ => True, {
    fresh := trivial
    idle := fun _ _ => trivial
    le := fun hc => by
      rw [List.length_replicate]
      exact hc.2
    begin := Gives.pure ⟨(Int.sub_zero _).symm, Nat.zero_le n⟩
    end_ := fun _ => .pure trivial
    endLive := nofun
    asIter := nofun
    read := fun _ hx => by
      rw [List.getElem?_replicate] at hx
      split at hx
      · exact .pure (Option.some.inj hx)
      · cases hx
    next := fun {i it} hc hi => by
      obtain ⟨rfl, _⟩ := hc
      rw [List.length_replicate] at hi
      apply (Gives.require (by omega)).bind
      intro _ _
      exact .pure ⟨by omega, hi⟩
    prev := fun _ i it hc => by
      obtain ⟨rfl, hle⟩ := hc
      exact .pure ⟨by omega, Nat.le_of_succ_le hle⟩
    equal := fun {i j c d} hc hd => by
      obtain ⟨rfl, _⟩ := hc
      obtain ⟨rfl, _⟩ := hd
      exact .pure (decide_eq_decide.mpr (by omega))
    reached := fun {i c e} hc _ => by
      obtain ⟨rfl, _⟩ := hc
      rw [List.length_replicate]
      exact .pure (decide_eq_decide.mpr (by omega))
    advance := fun _ i j k c hc hn hj => by
      obtain ⟨rfl, _⟩ := hc
      rw [List.length_replicate] at hj
      exact .pure ⟨by omega, hj⟩
    distanceTo := fun _ i j c d hc hd => by
      obtain ⟨rfl, _⟩ := hc
      obtain ⟨rfl, _⟩ := hd
      exact .pure (by omega)
    distanceToEnd := nofun
    size := fun _ _ => by
      rw [List.length_replicate]
      exact .pure rfl
    jumpHook := nofun }⟩

/-- `from, from + 1, …` as far as `to`. -/
def integers (from_ to_ : Int) : List Int :=
  (List.range (to_ - from_).toNat).map fun k : Nat => from_ + k

theorem length_integers (from_ to_ : Int) :
    (integers from_ to_).length = (to_ - from_).toNat := by
  rw [integers, List.length_map, List.length_range]

theorem lawful_iota {from_ to_ : Int} (h : from_ ≤ to_) :
    Lawful (iota from_ to_) (integers from_ to_) :=
  ⟨fun _ _ => True, fun i (it : Int) => it = from_ + i ∧ it ≤ to_, fun last => last = to_, {
    fresh := trivial
    idle := fun _ _ => trivial
    le := fun hc => by
      rw [length_integers]
      omega
    begin := Gives.pure ⟨(Int.add_zero _).symm, h⟩
    end_ := fun _ => .pure rfl
    endLive := fun _ _ => Gives.pure rfl
    asIter := fun _ (e : Int) (he : e = to_) => by
      rw [length_integers]
      exact ⟨e, rfl, by omega, Int.le_of_eq he⟩
    read := fun hc hx => by
      obtain ⟨rfl, _⟩ := hc
      rw [integers, List.getElem?_map, Option.map_eq_some_iff] at hx
      obtain ⟨k, hk, rfl⟩ := hx
      obtain ⟨_, hk⟩ := List.getElem?_eq_some_iff.mp hk
      rw [List.getElem_range] at hk
      exact .pure (congrArg (fun k : Nat => from_ + (k : Int)) hk)
    next := fun {i it} hc hi => by
      obtain ⟨rfl, _⟩ := hc
      rw [length_integers] at hi
      exact .pure ⟨by omega, by omega⟩
    prev := fun _ i it hc => by
      obtain ⟨rfl, hle⟩ := hc
      exact .pure ⟨by omega, by omega⟩
    equal := fun {i j c d} hc hd => by
      obtain ⟨rfl, _⟩ := hc
      obtain ⟨rfl, _⟩ := hd
      exact .pure (decide_eq_decide.mpr (by omega))
    reached := fun {i c} {e : Int} hc (he : e = to_) => by
      obtain ⟨rfl, _⟩ := hc
      rw [length_integers]
      exact .pure (decide_eq_decide.mpr (by omega))
    advance := fun _ i j k c hc hn hj => by
      obtain ⟨rfl, _⟩ := hc
      rw [length_integers] at hj
      exact .pure ⟨by omega, by omega⟩
    distanceTo := fun _ i j c d hc hd => by
      obtain ⟨rfl, _⟩ := hc
      obtain ⟨rfl, _⟩ := hd
      exact .pure (by omega)
    distanceToEnd := fun _ i c (e : Int) hc (he : e = to_) => by
      obtain ⟨rfl, _⟩ := hc
      rw [length_integers]
      exact .pure (by omega)
    size := fun _ phase => by
      rw [length_integers]
      have hbegin : Yields (fun _ : Unit => True) (pure from_) (fun _ => True) (· = from_) :=
        Gives.pure rfl
      have hend : Gives (fun _ : Unit => True) (pure to_) (· = to_) := Gives.pure rfl
      apply sizeByEnds_yields hbegin hend
      rintro c e rfl rfl
      exact .pure (by omega)
    jumpHook := nofun }⟩

end EARanges.Adaptor
