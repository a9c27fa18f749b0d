import EARanges.Adaptor.Interface

/-!
# `zip_with_view` of two ranges

view/zip_with.hpp, for two bases of any kind. Iterators are pairs, which are equal if they agree
in either component, and the distance is the smaller one, so that bases of different lengths end
with the shorter. Two iterators at the ends of such bases are no pair of equal positions; going
back from there is not going back to the last element.
-/
namespace EARanges.Adaptor
open EARanges.Support

variable {α β γ : Type}

section
variable (R : RangeModel α) (S : RangeModel β)

/-- `distance_to`: the smallest distance in magnitude. -/
def zipDistance (left right : R.Iter × S.Iter) : Effect (R.State × S.State) Int := do
  let first ← Effect.onFst (R.distanceTo left.1 right.1)
  if first = 0 then pure 0
  else
    let second ← Effect.onSnd (S.distanceTo left.2 right.2)
    pure (if 0 < first then min first second else max first second)

def zipAsIter (last : R.Sent × S.Sent) : Exec (R.Iter × S.Iter) := do
  let left ← R.asIter last.1
  let right ← S.asIter last.2
  .ok (left, right)

def zipDistanceToEnd (it : R.Iter × S.Iter) (last : R.Sent × S.Sent) :
    Effect (R.State × S.State) Int := do
  let last ← .ofExec (zipAsIter R S last)
  zipDistance R S it last

def zipWith (fun_ : α → β → γ) : RangeModel γ where
  State := R.State × S.State
  Iter := R.Iter × S.Iter
  Sent := R.Sent × S.Sent
  caps := {
    bidirectional := R.caps.bidirectional && S.caps.bidirectional
    randomAccess := R.caps.randomAccess && S.caps.randomAccess
    common := R.caps.common && S.caps.common
    sized := R.caps.sized && S.caps.sized ||
      (R.caps.common && S.caps.common) && (R.caps.sizedIter && S.caps.sizedIter)
    sizedIter := R.caps.sizedIter && S.caps.sizedIter
    sizedSentinel := (R.caps.common && S.caps.common) && (R.caps.sizedIter && S.caps.sizedIter)
    bidirectional_of_random := fun h => by
      obtain ⟨hR, hS⟩ := Bool.and_eq_true_iff.mp h
      rw [R.caps.bidirectional_of_random hR, S.caps.bidirectional_of_random hS]
      rfl
    sizedIter_of_random := fun h => by
      obtain ⟨hR, hS⟩ := Bool.and_eq_true_iff.mp h
      rw [R.caps.sizedIter_of_random hR, S.caps.sizedIter_of_random hS]
      rfl
    sentinel_of_common := fun h => by rw [h, Bool.true_and] }
  fresh := (R.fresh, S.fresh)
  begin := Effect.onEach R.begin S.begin
  end_ := Effect.onEach R.end_ S.end_
  asIter := zipAsIter R S
  read it := do
    let (x, y) ← Effect.onEach (R.read it.1) (S.read it.2)
    pure (fun_ x y)
  next it := Effect.onEach (R.next it.1) (S.next it.2)
  prev it := Effect.onEach (R.prev it.1) (S.prev it.2)
  equal left right := do
    let (a, b) ← Effect.onEach (R.equal left.1 right.1) (S.equal left.2 right.2)
    pure (a || b)
  reached it last := do
    let (a, b) ← Effect.onEach (R.reached it.1 last.1) (S.reached it.2 last.2)
    pure (a || b)
  advance n it := Effect.onEach (advanceN R n it.1) (advanceN S n it.2)
  distanceTo := zipDistance R S
  distanceToEnd := zipDistanceToEnd R S
  size :=
    if R.caps.sized && S.caps.sized then do
      let (m, n) ← Effect.onEach R.size S.size
      pure (min m n)
    else
      sizeByEnds (Effect.onEach R.begin S.begin) (Effect.onEach R.end_ S.end_)
        (zipDistanceToEnd R S)
  jumpHook := none

end

section
variable {R : RangeModel α} {S : RangeModel β} {xs : List α} {ys : List β}
  {InvR : Phase → R.State → Prop} {AtR : Nat → R.Iter → Prop} {EndR : R.Sent → Prop}
  {InvS : Phase → S.State → Prop} {AtS : Nat → S.Iter → Prop} {EndS : S.Sent → Prop}

def ZipInv {σ τ : Type} (InvR : Phase → σ → Prop) (InvS : Phase → τ → Prop) (phase : Phase) :
    σ × τ → Prop := Both (InvR phase) (InvS phase)

/-- Both iterators are at position `i`; or each is at its own end, which stands for the end of
the shorter base, and cannot go back. -/
structure ZipPlace (m n : Nat) (back : Bool) (i a b : Nat) : Prop where
  le : i ≤ min m n
  place : a = i ∧ b = i ∨ back = false ∧ i = min m n ∧ a = m ∧ b = n

def ZipAt {ι ι' : Type} (AtR : Nat → ι → Prop) (AtS : Nat → ι' → Prop) (m n : Nat) (back : Bool)
    (i : Nat) (it : ι × ι') : Prop :=
  ∃ a b, ZipPlace m n back i a b ∧ AtR a it.1 ∧ AtS b it.2

/-- Before the end, or where one can go back, an iterator is a pair of equal positions. -/
theorem ZipPlace.same {m n i a b : Nat} {back : Bool} (h : ZipPlace m n back i a b)
    (hi : i < min m n ∨ back = true) : a = i ∧ b = i := by
  rcases h.place with hsame | ⟨hback, rfl, _⟩
  · exact hsame
  · rcases hi with hlt | htrue
    · exact absurd hlt (Nat.lt_irrefl _)
    · rw [hback] at htrue
      cases htrue

/-- Iterators are equal if they agree in either component. -/
theorem ZipPlace.equal {m n i j a b c d : Nat} {back : Bool} (h : ZipPlace m n back i a b)
    (h' : ZipPlace m n back j c d) : (decide (a = c) || decide (b = d)) = decide (i = j) := by
  have hle := h.le
  have hle' := h'.le
  rw [← Bool.decide_or, decide_eq_decide]
  rcases h.place with ⟨rfl, rfl⟩ | ⟨_, rfl, rfl, rfl⟩ <;>
    rcases h'.place with ⟨rfl, rfl⟩ | ⟨_, rfl, rfl, rfl⟩ <;> omega

theorem ZipPlace.atEnd {m n i a b : Nat} {back : Bool} (h : ZipPlace m n back i a b) :
    (decide (a = m) || decide (b = n)) = decide (i = min m n) := by
  have hle := h.le
  rw [← Bool.decide_or, decide_eq_decide]
  rcases h.place with ⟨rfl, rfl⟩ | ⟨_, rfl, rfl, rfl⟩ <;> omega

/-- The smallest distance in magnitude is the distance of the positions. -/
theorem ZipPlace.distance {m n i j a b c d : Nat} {back : Bool} (h : ZipPlace m n back i a b)
    (h' : ZipPlace m n back j c d) :
    (if (c : Int) - a = 0 then 0
      else if 0 < (c : Int) - a then min ((c : Int) - a) (d - b) else max ((c : Int) - a) (d - b)) =
      (j : Int) - i := by
  have hle := h.le
  have hle' := h'.le
  rcases h.place with ⟨rfl, rfl⟩ | ⟨_, rfl, rfl, rfl⟩ <;>
    rcases h'.place with ⟨rfl, rfl⟩ | ⟨_, rfl, rfl, rfl⟩ <;> omega

theorem zipDistance_gives (h : Presents R xs InvR AtR EndR) (h' : Presents S ys InvS AtS EndS)
    (hcaps : (R.caps.sizedIter && S.caps.sizedIter) = true) {back : Bool} {i j : Nat}
    {c d : R.Iter × S.Iter} (hc : ZipAt AtR AtS xs.length ys.length back i c)
    (hd : ZipAt AtR AtS xs.length ys.length back j d) :
    Gives (ZipInv InvR InvS .live) (zipDistance R S c d) (· = (j : Int) - i) := by
  obtain ⟨hsized, hsized'⟩ := Bool.and_eq_true_iff.mp hcaps
  obtain ⟨a, b, hplace, ha, hb⟩ := hc
  obtain ⟨a', b', hplace', ha', hb'⟩ := hd
  have hdist := hplace.distance hplace'
  apply (h.distanceTo hsized ha ha').onFst.bind
  rintro first rfl
  split
  next hzero =>
    rw [if_pos hzero] at hdist
    exact Gives.pure hdist
  next hzero =>
    rw [if_neg hzero] at hdist
    apply (h'.distanceTo hsized' hb hb').onSnd.bind
    rintro second rfl
    exact Gives.pure hdist

/-- Both `end`s, as iterators. -/
theorem zipAsIter_gives (h : Presents R xs InvR AtR EndR) (h' : Presents S ys InvS AtS EndS)
    {back : Bool} (hback : back = true → xs.length = ys.length)
    (hcommon : (R.caps.common && S.caps.common) = true) {last : R.Sent × S.Sent}
    (hlast : EndR last.1 ∧ EndS last.2) :
    ∃ it, zipAsIter R S last = .ok it ∧
      ZipAt AtR AtS xs.length ys.length back (min xs.length ys.length) it := by
  obtain ⟨hcommon, hcommon'⟩ := Bool.and_eq_true_iff.mp hcommon
  obtain ⟨c, hc, hat⟩ := h.asIter hcommon hlast.1
  obtain ⟨d, hd, hat'⟩ := h'.asIter hcommon' hlast.2
  refine ⟨(c, d), ?_, xs.length, ys.length, ⟨Nat.le_refl _, ?_⟩, hat, hat'⟩
  · rw [zipAsIter, hc, hd]
    rfl
  · cases back with
    | false => exact .inr ⟨rfl, rfl, rfl, rfl⟩
    | true =>
      have hlength := hback rfl
      exact .inl (by omega)

theorem zipDistanceToEnd_gives (h : Presents R xs InvR AtR EndR)
    (h' : Presents S ys InvS AtS EndS) {back : Bool} (hback : back = true → xs.length = ys.length)
    (hcommon : (R.caps.common && S.caps.common) = true)
    (hcaps : (R.caps.sizedIter && S.caps.sizedIter) = true) {i : Nat} {it : R.Iter × S.Iter}
    {last : R.Sent × S.Sent} (hit : ZipAt AtR AtS xs.length ys.length back i it)
    (hlast : EndR last.1 ∧ EndS last.2) :
    Gives (ZipInv InvR InvS .live) (zipDistanceToEnd R S it last)
      (· = ((min xs.length ys.length : Nat) : Int) - i) := by
  obtain ⟨d, hd, hat⟩ := zipAsIter_gives h h' hback hcommon hlast
  apply (Gives.ofExec hd hat).bind
  intro d hat
  exact zipDistance_gives h h' hcaps hit hat

theorem zipSize_gives (h : Presents R xs InvR AtR EndR) (h' : Presents S ys InvS AtS EndS)
    (fun_ : α → β → γ)
    (hlength : (zipWith R S fun_).caps.common = true →
      (zipWith R S fun_).caps.bidirectional = true → xs.length = ys.length)
    (hsized : (zipWith R S fun_).caps.sized = true) (phase : Phase) :
    Gives (ZipInv InvR InvS phase) (zipWith R S fun_).size (· = min xs.length ys.length) := by
  change Gives _ (if R.caps.sized && S.caps.sized then _ else _) _
  split
  next hown =>
    obtain ⟨hown, hown'⟩ := Bool.and_eq_true_iff.mp hown
    apply ((h.size hown phase).onEach (h'.size hown' phase)).bind
    rintro ⟨m, n⟩ ⟨rfl, rfl⟩
    exact Gives.pure rfl
  next hown =>
    obtain ⟨hcommon, hcaps⟩ :=
      Bool.and_eq_true_iff.mp ((Bool.or_eq_true_iff.mp hsized).resolve_left hown)
    have hrun := sizeByEnds_yields (n := min xs.length ys.length) (h.begin.onEach h'.begin)
      (Gives.onEach (h.end_ .idle) (h'.end_ .idle)) fun c e hc he => by
        have hplace : ZipPlace xs.length ys.length
            (R.caps.bidirectional && S.caps.bidirectional) 0 0 0 :=
          ⟨Nat.zero_le _, .inl ⟨rfl, rfl⟩⟩
        apply (zipDistanceToEnd_gives h h' (hlength hcommon) hcommon hcaps
          ⟨0, 0, hplace, hc.1, hc.2⟩ he).mono
        rintro n rfl
        exact Int.sub_zero _
    have hidle : ∀ s, ZipInv InvR InvS .live s → ZipInv InvR InvS .idle s :=
      fun s hs => ⟨h.idle _ hs.1, h'.idle _ hs.2⟩
    cases phase with
    | idle => exact hrun.mono hidle fun _ hn => hn
    | live => exact hrun.weaken hidle

/-- Where both bases end at iterators that go back, they must have one length. -/
theorem zipWith_presents (h : Presents R xs InvR AtR EndR) (h' : Presents S ys InvS AtS EndS)
    (fun_ : α → β → γ)
    (hlength : (zipWith R S fun_).caps.common = true →
      (zipWith R S fun_).caps.bidirectional = true → xs.length = ys.length) :
    Presents (zipWith R S fun_) (List.zipWith fun_ xs ys) (ZipInv InvR InvS)
      (ZipAt AtR AtS xs.length ys.length (R.caps.bidirectional && S.caps.bidirectional))
      fun last => EndR last.1 ∧ EndS last.2 := by
  have hmin : (List.zipWith fun_ xs ys).length = min xs.length ys.length := List.length_zipWith
  exact {
    fresh := ⟨h.fresh, h'.fresh⟩
    idle := fun s hs => ⟨h.idle _ hs.1, h'.idle _ hs.2⟩
    le := fun ⟨_, _, hplace, _⟩ => by
      rw [hmin]
      exact hplace.le
    begin := (h.begin.onEach h'.begin).mono (fun _ hs => hs) fun c hc =>
      ⟨0, 0, ⟨Nat.zero_le _, .inl ⟨rfl, rfl⟩⟩, hc.1, hc.2⟩
    end_ := fun phase => Gives.onEach (h.end_ phase) (h'.end_ phase)
    endLive := fun hcommon hbidir => by
      obtain ⟨hcommon, hcommon'⟩ := Bool.and_eq_true_iff.mp hcommon
      obtain ⟨hbidir, hbidir'⟩ := Bool.and_eq_true_iff.mp hbidir
      exact (h.endLive hcommon hbidir).onEach (h'.endLive hcommon' hbidir')
    asIter := fun hcommon e he => by
      rw [hmin]
      exact zipAsIter_gives h h' (hlength hcommon) hcommon he
    read := fun {i c z} hc hz => by
      obtain ⟨a, b, hplace, ha, hb⟩ := hc
      have hi := (List.getElem?_eq_some_iff.mp hz).1
      rw [hmin] at hi
      obtain ⟨rfl, rfl⟩ := hplace.same (.inl hi)
      have hx := List.getElem?_eq_getElem (l := xs) (i := b) (by omega)
      have hy := List.getElem?_eq_getElem (l := ys) (i := b) (by omega)
      rw [List.getElem?_zipWith, hx, hy] at hz
      apply ((h.read ha hx).onEach (h'.read hb hy)).bind
      rintro ⟨x, y⟩ ⟨rfl, rfl⟩
      exact Gives.pure (Option.some.inj hz)
    next := fun {i c} hc hi => by
      obtain ⟨a, b, hplace, ha, hb⟩ := hc
      rw [hmin] at hi
      obtain ⟨rfl, rfl⟩ := hplace.same (.inl hi)
      exact ((h.next ha (by omega)).onEach (h'.next hb (by omega))).mono
        fun c' hc' => ⟨b + 1, b + 1, ⟨hi, .inl ⟨rfl, rfl⟩⟩, hc'.1, hc'.2⟩
    prev := fun hback i c hc => by
      obtain ⟨hbidir, hbidir'⟩ := Bool.and_eq_true_iff.mp hback
      obtain ⟨a, b, hplace, ha, hb⟩ := hc
      have hle := hplace.le
      obtain ⟨rfl, rfl⟩ := hplace.same (.inr hback)
      exact ((h.prev hbidir ha).onEach (h'.prev hbidir' hb)).mono
        fun c' hc' => ⟨i, i, ⟨by omega, .inl ⟨rfl, rfl⟩⟩, hc'.1, hc'.2⟩
    equal := fun ⟨a, b, hplace, ha, hb⟩ ⟨a', b', hplace', ha', hb'⟩ => by
      apply ((h.equal ha ha').onEach (h'.equal hb hb')).bind
      rintro ⟨p, q⟩ ⟨rfl, rfl⟩
      exact Gives.pure (hplace.equal hplace')
    reached := fun {i c e} ⟨a, b, hplace, ha, hb⟩ he => by
      rw [hmin]
      apply ((h.reached ha he.1).onEach (h'.reached hb he.2)).bind
      rintro ⟨p, q⟩ ⟨rfl, rfl⟩
      exact Gives.pure hplace.atEnd
    advance := fun hrandom i j n c hc hn hj => by
      obtain ⟨hrandom, hrandom'⟩ := Bool.and_eq_true_iff.mp hrandom
      have hbidir := R.caps.bidirectional_of_random hrandom
      have hbidir' := S.caps.bidirectional_of_random hrandom'
      obtain ⟨a, b, hplace, ha, hb⟩ := hc
      rw [hmin] at hj
      obtain ⟨rfl, rfl⟩ := hplace.same (.inr (Bool.and_eq_true_iff.mpr ⟨hbidir, hbidir'⟩))
      exact ((advanceN_gives h ha hn (by omega) (.inr hbidir)).onEach
        (advanceN_gives h' hb hn (by omega) (.inr hbidir'))).mono
        fun c' hc' => ⟨j, j, ⟨hj, .inl ⟨rfl, rfl⟩⟩, hc'.1, hc'.2⟩
    distanceTo := fun hsized i j c d hc hd => zipDistance_gives h h' hsized hc hd
    distanceToEnd := fun hcaps i c e hc he => by
      obtain ⟨hcommon, hsized⟩ := Bool.and_eq_true_iff.mp hcaps
      rw [hmin]
      exact zipDistanceToEnd_gives h h' (hlength hcommon) hcommon hsized hc he
    size := fun hsized phase => by
      rw [hmin]
      exact zipSize_gives h h' fun_ hlength hsized phase
    jumpHook := nofun }

theorem lawful_zipWith (h : Lawful R xs) (h' : Lawful S ys) (fun_ : α → β → γ)
    (hlength : (zipWith R S fun_).caps.common = true →
      (zipWith R S fun_).caps.bidirectional = true → xs.length = ys.length) :
    Lawful (zipWith R S fun_) (List.zipWith fun_ xs ys) := by
  obtain ⟨_, _, _, h⟩ := h
  obtain ⟨_, _, _, h'⟩ := h'
  exact ⟨_, _, _, zipWith_presents h h' fun_ hlength⟩

end
end EARanges.Adaptor
