import EARanges.Adaptor.Pipeline
import EARanges.Support.Visits
import EARanges.Support.Walks

/-!
# `cache1_view`

view/cache1.hpp: a single-pass view that keeps the element it has read last, so that an element is
not computed anew each time it is read. `remove_if_view` over it shows what that is for: a kept
element is read by the predicate and again by the loop.
-/
namespace EARanges.Adaptor
open EARanges.Support EARanges.View

variable {α : Type}

/-- `dirty_` and `cache_`. -/
structure Cache1 (α : Type) where
  dirty : Bool
  cache : Option α

section
variable (R : RangeModel α)

/-- `cursor::read`; `update_` puts the value into the cache whether it is empty or not. -/
def cache1Read (it : R.Iter) : Effect (R.State × Cache1 α) α := fun s =>
  if s.2.dirty then do
    let (x, base) ← R.read it s.1
    .ok (x, base, ⟨false, some x⟩)
  else
    match s.2.cache with
    | some x => .ok (x, s)
    | none => .error .fault

/-- `T x = *it`, which moves the value out of the cache. -/
def cache1Take (husk : α → α) (it : R.Iter) : Effect (R.State × Cache1 α) α := fun s => do
  let (x, base, own) ← cache1Read R it s
  .ok (x, base, { own with cache := some (husk x) })

def cache1Next (it : R.Iter) : Effect (R.State × Cache1 α) R.Iter := fun s => do
  let (it, base) ← R.next it s.1
  .ok (it, base, { s.2 with dirty := true })

def cache1Begin : Effect (R.State × Cache1 α) R.Iter := fun s => do
  let (it, base) ← R.begin s.1
  .ok (it, base, { s.2 with dirty := true })

/-- What is read is not moved from. -/
def cache1 : RangeModel α where
  State := R.State × Cache1 α
  Iter := R.Iter
  Sent := R.Sent
  caps := {
    bidirectional := false
    randomAccess := false
    common := R.caps.common
    sized := R.caps.sized
    sizedIter := R.caps.sizedIter
    sizedSentinel := R.caps.sizedSentinel
    bidirectional_of_random := fun h => h
    sizedIter_of_random := nofun
    sentinel_of_common := R.caps.sentinel_of_common }
  fresh := (R.fresh, ⟨true, none⟩)
  begin := cache1Begin R
  end_ := .onFst R.end_
  asIter := R.asIter
  read := cache1Read R
  next := cache1Next R
  prev _ := Effect.fault
  equal it that := .onFst (R.equal it that)
  reached it last := .onFst (R.reached it last)
  advance _ _ := Effect.fault
  distanceTo it that := .onFst (R.distanceTo it that)
  distanceToEnd it last := .onFst (R.distanceToEnd it last)
  size := .onFst R.size
  jumpHook := none

end

section
variable {R : RangeModel α} {xs : List α} {At : Nat → R.Iter → Prop} {AtEnd : R.Sent → Prop}
  {Seen : Nat → Bool → List α → R.State → Prop} {charge : Bool → α → List α}

/-- What is in the cache, if the element at `i` has been read. -/
def CacheSeen (xs : List α) (i : Nat) (again : Bool) (own : Cache1 α) : Prop :=
  own.dirty = !again ∧ (again = true → own.cache = xs[i]?)

/-- Only the first read of an element is a read of the base. -/
theorem walks_cache1 (h : Walks R xs At AtEnd Seen charge) :
    Walks (cache1 R) xs At AtEnd
      (fun i again log => Both (Seen i again log) (CacheSeen xs i again))
      fun again x => if again then [] else charge false x where
  le := h.le
  begin := by
    rintro _ rfl
    obtain ⟨c, s, hrun, hs, hc⟩ := h.begin R.fresh rfl
    refine ⟨c, (s, ⟨true, none⟩), ?_, ⟨hs, rfl, nofun⟩, hc⟩
    change (R.begin R.fresh >>= fun p => .ok (p.1, p.2, (⟨true, none⟩ : Cache1 α))) = _
    rw [hrun]
    rfl
  end_ := h.end_.onFst
  reached hc he := (h.reached hc he).onFst
  read {i c x again log} hc hx := by
    rintro ⟨s, dirty, cache⟩ ⟨hs, hdirty, hcache⟩
    obtain rfl : dirty = !again := hdirty
    change ∃ a s', cache1Read R c (s, ⟨!again, cache⟩) = .ok (a, s') ∧ _
    cases again with
    | true =>
      obtain rfl : cache = some x := (hcache rfl).trans hx
      exact ⟨x, _, rfl, ⟨by rwa [if_pos rfl, List.append_nil], rfl, fun _ => hx.symm⟩, rfl⟩
    | false =>
      obtain ⟨y, s', hrun, hs', rfl⟩ := h.read hc hx s hs
      refine ⟨y, (s', ⟨false, some y⟩), ?_, ⟨hs', rfl, fun _ => hx.symm⟩, rfl⟩
      change (R.read c s >>= fun p => .ok (p.1, p.2, (⟨false, some p.1⟩ : Cache1 α))) = _
      rw [hrun]
      rfl
  next {i c again log} hc hlt := by
    rintro ⟨s, own⟩ ⟨hs, _⟩
    obtain ⟨c', s', hrun, hs', hc'⟩ := h.next hc hlt s hs
    refine ⟨c', (s', { own with dirty := true }), ?_, ⟨hs', rfl, nofun⟩, hc'⟩
    change (R.next c s >>= fun p => .ok (p.1, p.2, { own with dirty := true })) = _
    rw [hrun]
    rfl

/-! ## Any use of the view -/

/-- A program that holds an iterator of the view and the end. -/
def cache1Client (R : RangeModel α) (husk : α → α) (last : R.Sent) :
    Responder ((R.State × Cache1 α) × R.Iter) VisitRequest (VisitAnswer α)
  | .atEnd, (s, it) => do
    let (b, s) ← (cache1 R).reached it last s
    .ok ((s, it), .truth b)
  | .look, (s, it) => do
    let (x, s) ← cache1Read R it s
    .ok ((s, it), .element x)
  | .take, (s, it) => do
    let (x, s) ← cache1Take R husk it s
    .ok ((s, it), .element x)
  | .next, (s, it) => do
    let (it, s) ← cache1Next R it s
    .ok ((s, it), .done)

/-- `auto it = rng.begin(); auto last = rng.end();`, and then any use of them. -/
def cache1Program (R : RangeModel α) (husk : α → α) (ops : List VisitRequest) :
    Effect (R.State × Cache1 α) (List (VisitAnswer α)) := do
  let it ← (cache1 R).begin
  let last ← (cache1 R).end_
  fun s => do
    let ((s, _), rs) ← Responder.run (cache1Client R husk last) ops (s, it)
    .ok (rs, s)

/-- The cache holds what is left of the element, and the base has been charged for elements up to
this one, each of them once. -/
structure Cached (xs : List α) (husk : α → α) (At : Nat → R.Iter → Prop)
    (Seen : Nat → Bool → List α → R.State → Prop) (charge : Bool → α → List α)
    (s : (R.State × Cache1 α) × R.Iter) (v : Visit) : Prop where
  at_ : At v.position s.2
  dirty : s.1.2.dirty = !v.computed
  cache : v.computed = true → s.1.2.cache = xs[v.position]?.map (v.shown husk)
  taken : v.computed = false → v.taken = 0
  seen : ∃ reads : List α, reads.Sublist (xs.take v.reach) ∧
    Seen v.position v.computed (reads.flatMap (charge false)) s.1.1

section
variable {husk : α → α} {s : (R.State × Cache1 α) × R.Iter} {v : Visit} {x : α}

theorem cached_read (h : Walks R xs At AtEnd Seen charge) (hs : Cached xs husk At Seen charge s v)
    (hx : xs[v.position]? = some x) :
    ∃ s', cache1Read R s.2 s.1 = .ok (v.shown husk x, s') ∧
      Cached xs husk At Seen charge (s', s.2) { v with computed := true } := by
  obtain ⟨⟨base, dirty, cache⟩, it⟩ := s
  obtain ⟨position, computed, taken⟩ := v
  obtain ⟨hat, hdirty, hcache, htaken, reads, hreads, hseen⟩ := hs
  obtain rfl : dirty = !computed := hdirty
  cases computed with
  | true =>
    obtain rfl : cache = some (husk^[taken] x) := by
      rw [show cache = _ from hcache rfl, hx]
      rfl
    exact ⟨_, rfl, ⟨hat, rfl, fun _ => by rw [hx]; rfl, nofun, reads, hreads, hseen⟩⟩
  | false =>
    obtain rfl : taken = 0 := htaken rfl
    obtain ⟨y, base', hrun, hseen', rfl⟩ := h.read hat hx base hseen
    refine ⟨(base', ⟨false, some y⟩), ?_, ⟨hat, rfl, fun _ => by rw [hx]; rfl, nofun,
      reads ++ [y], ?_, ?_⟩⟩
    · change (R.read it base >>= fun p => .ok (p.1, p.2, (⟨false, some p.1⟩ : Cache1 α))) = _
      rw [hrun]
      rfl
    · have hlt := (List.getElem?_eq_some_iff.mp hx).1
      have htake : xs.take (position + 1) = xs.take position ++ [y] := by
        rw [List.take_add_one, hx]
        rfl
      change (reads ++ [y]).Sublist (xs.take (position + 1))
      rw [htake]
      exact List.Sublist.append hreads (.refl [y])
    · rw [List.flatMap_append, List.flatMap_singleton]
      exact hseen'

theorem cached_take (h : Walks R xs At AtEnd Seen charge) (hs : Cached xs husk At Seen charge s v)
    (hx : xs[v.position]? = some x) :
    ∃ s', cache1Take R husk s.2 s.1 = .ok (v.shown husk x, s') ∧
      Cached xs husk At Seen charge (s', s.2)
        { v with computed := true, taken := v.taken + 1 } := by
  obtain ⟨⟨base, own⟩, hrun, hat, hdirty, hcache, htaken, hseen⟩ := cached_read h hs hx
  refine ⟨(base, { own with cache := some (husk (v.shown husk x)) }), ?_,
    hat, hdirty, fun _ => ?_, nofun, hseen⟩
  · change (cache1Read R s.2 s.1 >>= fun p =>
      .ok (p.1, p.2.1, { p.2.2 with cache := some (husk p.1) })) = _
    rw [hrun]
    rfl
  · rw [hx]
    exact congrArg some (Function.iterate_succ_apply' husk v.taken x).symm

theorem cached_next (h : Walks R xs At AtEnd Seen charge) (hs : Cached xs husk At Seen charge s v)
    (hx : xs[v.position]? = some x) :
    ∃ s' it', cache1Next R s.2 s.1 = .ok (it', s') ∧
      Cached xs husk At Seen charge (s', it') ⟨v.position + 1, false, 0⟩ := by
  obtain ⟨hat, _, _, _, reads, hreads, hseen⟩ := hs
  have hlt := (List.getElem?_eq_some_iff.mp hx).1
  obtain ⟨it', base', hrun, hseen', hat'⟩ := h.next hat hlt s.1.1 hseen
  have hreach : v.reach ≤ v.position + 1 := by
    unfold Visit.reach
    split <;> omega
  refine ⟨(base', { s.1.2 with dirty := true }), it', ?_, hat', rfl, nofun, fun _ => rfl, reads,
    hreads.trans (List.take_sublist_take_left hreach), hseen'⟩
  change (R.next s.2 s.1.1 >>= fun p => .ok (p.1, p.2, { s.1.2 with dirty := true })) = _
  rw [hrun]
  rfl

theorem cached_atEnd (h : Walks R xs At AtEnd Seen charge) {last : R.Sent} (hlast : AtEnd last)
    (hs : Cached xs husk At Seen charge s v) :
    ∃ s', (cache1 R).reached s.2 last s.1 = .ok (decide (v.position = xs.length), s') ∧
      Cached xs husk At Seen charge (s', s.2) v := by
  obtain ⟨hat, hdirty, hcache, htaken, reads, hreads, hseen⟩ := hs
  obtain ⟨b, base', hrun, hseen', rfl⟩ := h.reached hat hlast s.1.1 hseen
  refine ⟨(base', s.1.2), ?_, hat, hdirty, hcache, htaken, reads, hreads, hseen'⟩
  change (R.reached s.2 last s.1.1 >>= fun p => .ok (p.1, p.2, s.1.2)) = _
  rw [hrun]
  rfl

theorem cache1Client_refines (h : Walks R xs At AtEnd Seen charge) {last : R.Sent}
    (hlast : AtEnd last) {ops : List VisitRequest} {v' : Visit} {rs : List (VisitAnswer α)}
    (hs : Cached xs husk At Seen charge s v)
    (hrun : Responder.run (visits (xs[·]?) husk) ops v = .ok (v', rs)) :
    ∃ s', Responder.run (cache1Client R husk last) ops s = .ok (s', rs) ∧
      Cached xs husk At Seen charge s' v' := by
  refine visits_refines (fun s v hs hnone => ?_) (fun s v x op hs hx => ?_) hs hrun
  · obtain ⟨s', hrun, hs'⟩ := cached_atEnd h hlast hs
    have hend : v.position = xs.length :=
      Nat.le_antisymm (h.le hs.at_) (List.getElem?_eq_none_iff.mp hnone)
    refine ⟨(s', s.2), ?_, hs'⟩
    rw [cache1Client, hrun, decide_eq_true hend]
    rfl
  · cases op with
    | atEnd =>
      obtain ⟨s', hrun, hs'⟩ := cached_atEnd h hlast hs
      have hlt := (List.getElem?_eq_some_iff.mp hx).1
      refine ⟨(s', s.2), ?_, hs'⟩
      rw [cache1Client, hrun, decide_eq_false (Nat.ne_of_lt hlt)]
      rfl
    | look =>
      obtain ⟨s', hrun, hs'⟩ := cached_read h hs hx
      refine ⟨(s', s.2), ?_, hs'⟩
      rw [cache1Client, hrun]
      rfl
    | take =>
      obtain ⟨s', hrun, hs'⟩ := cached_take h hs hx
      refine ⟨(s', s.2), ?_, hs'⟩
      rw [cache1Client, hrun]
      rfl
    | next =>
      obtain ⟨s', it', hrun, hs'⟩ := cached_next h hs hx
      refine ⟨(s', it'), ?_, hs'⟩
      rw [cache1Client, hrun]
      rfl

theorem cache1Program_yields (h : Walks R xs At AtEnd Seen charge) {ops : List VisitRequest}
    {rs : List (VisitAnswer α)}
    (hrun : Responder.run (visits (xs[·]?) husk) ops .start = .ok (v, rs)) :
    Yields (· = (cache1 R).fresh) (cache1Program R husk ops)
      (fun s => ∃ reads : List α, reads.Sublist (xs.take v.reach) ∧
        Seen v.position v.computed (reads.flatMap (charge false)) s.1) (· = rs) := by
  have hw := walks_cache1 h
  apply hw.begin.bind
  intro it hit
  apply Yields.bind hw.end_
  intro last hlast s hs
  have hstart : Cached xs husk At Seen charge (s, it) .start :=
    ⟨hit, hs.2.1, nofun, fun _ => rfl, [], List.nil_sublist _, hs.1⟩
  obtain ⟨⟨s', it'⟩, hops, hs'⟩ := cache1Client_refines h hlast hstart hrun
  refine ⟨rs, s', ?_, hs'.seen, rfl⟩
  change (Responder.run (cache1Client R husk last) ops (s, it) >>= fun p => .ok (p.2, p.1.1)) = _
  rw [hops]
  rfl

end

/-! ## `remove_if_view` of what is walked -/

/-- What one element costs the loop: the predicate reads it, and the loop if it is kept. -/
def filterCost (charge : Bool → α → List α) (pred : α → Bool) (x : α) : List α :=
  charge false x ++ if pred x then [] else charge true x

/-- What it costs to find the first element that is kept. -/
def skipCost (charge : Bool → α → List α) (pred : α → Bool) : List α → List α
  | [] => []
  | x :: rest => charge false x ++ if pred x then skipCost charge pred rest else []

/-- What is left to pay once it has been found. -/
def keptCost (charge : Bool → α → List α) (pred : α → Bool) : List α → List α
  | [] => []
  | x :: rest => charge true x ++ rest.flatMap (filterCost charge pred)

theorem skipCost_append (charge : Bool → α → List α) (pred : α → Bool) (rest : List α) :
    skipCost charge pred rest ++ keptCost charge pred (rest.dropWhile pred) =
      rest.flatMap (filterCost charge pred) := by
  induction rest with
  | nil => rfl
  | cons x rest ih =>
    cases hx : pred x with
    | true =>
      rw [skipCost, List.dropWhile_cons_of_pos hx, List.flatMap_cons, filterCost, hx, ← ih]
      simp
    | false =>
      rw [skipCost, List.dropWhile_cons_of_neg (by simp [hx]), List.flatMap_cons, filterCost, hx,
        keptCost]
      simp

theorem not_of_head_dropWhile {pred : α → Bool} {rest : List α} :
    ∀ y ∈ (rest.dropWhile pred).head?, pred y = false := by
  intro y hy
  have hhead := List.head?_dropWhile_not pred rest
  rw [Option.mem_def.mp hy] at hhead
  exact hhead

theorem filter_dropWhile (pred : α → Bool) (rest : List α) :
    ((rest.dropWhile pred).filter fun x => !pred x) = rest.filter fun x => !pred x := by
  induction rest with
  | nil => rfl
  | cons x rest ih =>
    cases hx : pred x with
    | true => rw [List.dropWhile_cons_of_pos hx, ih, List.filter_cons_of_neg (by simp [hx])]
    | false => rw [List.dropWhile_cons_of_neg (by simp [hx])]

theorem notLastAnd_walks_end (h : Walks R xs At AtEnd Seen charge) (pred : α → Bool)
    {last : R.Sent} (hlast : AtEnd last) {c : R.Iter} {again : Bool} {log : List α}
    (hc : At xs.length c) :
    Gives (Seen xs.length again log) (notLastAnd R (testAt R pred) last c) (· = false) := by
  apply h.branch hc hlast
  · exact fun _ => Gives.pure rfl
  · exact fun hlt => absurd hlt (Nat.lt_irrefl _)

theorem notLastAnd_walks (h : Walks R xs At AtEnd Seen charge) (pred : α → Bool)
    {last : R.Sent} (hlast : AtEnd last) {i : Nat} {c : R.Iter} {x : α} {log : List α} (hc : At i c)
    (hx : xs[i]? = some x) :
    Yields (Seen i false log) (notLastAnd R (testAt R pred) last c)
      (Seen i true (log ++ charge false x)) (· = pred x) := by
  have hlt := (List.getElem?_eq_some_iff.mp hx).1
  apply h.branch hc hlast
  · exact fun hend => absurd hlt (by omega)
  · intro _
    apply (h.read hc hx).bind
    rintro y rfl
    exact Gives.pure rfl

theorem skipWhile_walks (h : Walks R xs At AtEnd Seen charge) {pred : α → Bool} {last : R.Sent}
    (hlast : AtEnd last) {rest : List α} {i f : Nat} {c : R.Iter} {log : List α} (hc : At i c)
    (hrest : xs.drop i = rest) (hfuel : rest.length < f) :
    Yields (Seen i false log) (skipWhile R f (testAt R pred) last c)
      (Seen (xs.length - (rest.dropWhile pred).length) (!(rest.dropWhile pred).isEmpty)
        (log ++ skipCost charge pred rest))
      (At (xs.length - (rest.dropWhile pred).length)) := by
  induction rest generalizing i f c log with
  | nil =>
    obtain ⟨f, rfl⟩ : ∃ n, f = n + 1 := ⟨f - 1, by omega⟩
    obtain rfl : i = xs.length := Nat.le_antisymm (h.le hc) (List.drop_eq_nil_iff.mp hrest)
    apply Yields.bind (notLastAnd_walks_end h pred hlast hc)
    rintro b rfl
    rw [skipCost, List.append_nil]
    exact Gives.pure hc
  | cons x rest ih =>
    obtain ⟨f, rfl⟩ : ∃ n, f = n + 1 := ⟨f - 1, by omega⟩
    obtain ⟨hlt, hx, hdrop⟩ := of_drop_eq_cons hrest
    apply (notLastAnd_walks h pred hlast hc hx).bind
    rintro b rfl
    cases hpred : pred x with
    | true =>
      rw [if_pos rfl, List.dropWhile_cons_of_pos hpred, skipCost, hpred, if_pos rfl,
        ← List.append_assoc]
      exact (h.next hc hlt).bind fun c' hc' => ih hc' hdrop (Nat.lt_of_succ_lt_succ hfuel)
    | false =>
      have hi : xs.length - (x :: rest).length = i := by
        rw [← hrest, List.length_drop]
        omega
      rw [if_neg Bool.false_ne_true, List.dropWhile_cons_of_neg (by simp [hpred]), skipCost, hpred,
        if_neg Bool.false_ne_true, List.append_nil, hi]
      exact Gives.pure hc

theorem satisfyForward_walks (h : Walks R xs At AtEnd Seen charge) {pred : α → Bool} {fuel : Nat}
    {rest : List α} {i : Nat} {c : R.Iter} {log : List α} (hc : At i c) (hrest : xs.drop i = rest)
    (hfuel : rest.length < fuel) :
    Yields (Seen i false log) (satisfyForward R fuel pred c)
      (Seen (xs.length - (rest.dropWhile pred).length) (!(rest.dropWhile pred).isEmpty)
        (log ++ skipCost charge pred rest))
      (At (xs.length - (rest.dropWhile pred).length)) :=
  Yields.bind h.end_ fun _ hlast => skipWhile_walks h hlast hc hrest hfuel

theorem removeIfNext_walks (h : Walks R xs At AtEnd Seen charge) {pred : α → Bool} {fuel : Nat}
    {rest : List α} {i : Nat} {c : R.Iter} {again : Bool} {log : List α} (hc : At i c)
    (hlt : i < xs.length) (hrest : xs.drop (i + 1) = rest) (hfuel : rest.length < fuel) :
    Yields (Seen i again log) (removeIfNext R fuel pred c)
      (Seen (xs.length - (rest.dropWhile pred).length) (!(rest.dropWhile pred).isEmpty)
        (log ++ skipCost charge pred rest))
      (At (xs.length - (rest.dropWhile pred).length)) := by
  apply Yields.bind h.end_
  intro last hlast
  apply Yields.bind (h.reached hc hlast)
  rintro b rfl
  apply Yields.bind (Gives.require (decide_eq_false (Nat.ne_of_lt hlt)))
  intro _ _
  exact (h.next hc hlt).bind fun c' hc' => satisfyForward_walks h hc' hrest hfuel

/-- The loop over the view, from an element that is kept or the end. -/
theorem collect_walks (h : Walks R xs At AtEnd Seen charge) {pred : α → Bool} {fuel : Nat}
    (hfuel : xs.length < fuel) {last : R.Sent} (hlast : AtEnd last) {kept : List α} {i f : Nat}
    {c : R.Iter} (log : List α) (hc : At i c) (hrest : xs.drop i = kept)
    (hkept : ∀ y ∈ kept.head?, pred y = false) (hf : kept.length < f) :
    Yields (Both (Seen i (!kept.isEmpty) log) fun _ => True)
      ((removeIf R fuel pred).collect last f c)
      (Both (Seen xs.length false (log ++ keptCost charge pred kept)) fun _ => True)
      (· = kept.filter fun x => !pred x) := by
  induction f generalizing kept i c log with
  | zero => omega
  | succ f ih =>
    apply Yields.bind (h.reached hc hlast).onFst
    rintro b rfl
    cases kept with
    | nil =>
      obtain rfl : i = xs.length := Nat.le_antisymm (h.le hc) (List.drop_eq_nil_iff.mp hrest)
      rw [decide_eq_true rfl, if_pos rfl, keptCost, List.append_nil]
      exact Gives.pure rfl
    | cons y rest =>
      obtain ⟨hlt, hy, hdrop⟩ := of_drop_eq_cons hrest
      have hpred : pred y = false := hkept y rfl
      have hlength : rest.length < fuel := by
        rw [← hdrop, List.length_drop]
        omega
      rw [decide_eq_false (Nat.ne_of_lt hlt), if_neg Bool.false_ne_true]
      apply (h.read hc hy).onFst.bind
      rintro y rfl
      apply (removeIfNext_walks h hc hlt hdrop hlength).onFst.bind
      intro c' hc'
      have hsuffix : rest.dropWhile pred <:+ xs :=
        (List.dropWhile_suffix pred).trans (hdrop ▸ List.drop_suffix (i + 1) xs)
      have hshort : (rest.dropWhile pred).length ≤ rest.length :=
        (List.dropWhile_sublist pred).length_le
      have hcost : log ++ charge true y ++ skipCost charge pred rest ++
          keptCost charge pred (rest.dropWhile pred) = log ++ keptCost charge pred (y :: rest) := by
        rw [List.append_assoc, skipCost_append, List.append_assoc, keptCost]
      have hloop := ih (log ++ charge true y ++ skipCost charge pred rest) hc'
        (List.suffix_iff_eq_drop.mp hsuffix).symm not_of_head_dropWhile
        (Nat.lt_of_le_of_lt hshort (Nat.lt_of_succ_lt_succ hf))
      rw [hcost, filter_dropWhile] at hloop
      rw [List.filter_cons_of_pos (by simp [hpred])]
      apply hloop.bind
      rintro ys rfl
      exact Gives.pure rfl

/-- The loop over the view reads each element for the predicate, and a kept element again. -/
theorem elements_walks (h : Walks R xs At AtEnd Seen charge) (pred : α → Bool) {fuel : Nat}
    (hfuel : xs.length < fuel) :
    Yields (· = (R.fresh, none)) ((removeIf R fuel pred).elements fuel)
      (Both (Seen xs.length false (xs.flatMap (filterCost charge pred))) fun _ => True)
      (· = xs.filter fun x => !pred x) := by
  have hfind : Yields (· = R.fresh) (R.begin >>= satisfyForward R fuel pred)
      (Seen (xs.length - (xs.dropWhile pred).length) (!(xs.dropWhile pred).isEmpty)
        (skipCost charge pred xs)) (At (xs.length - (xs.dropWhile pred).length)) :=
    h.begin.bind fun c hc => satisfyForward_walks h hc List.drop_zero hfuel
  have hbegin : Yields (· = (R.fresh, none)) (cacheBegin R fuel pred) _ _ :=
    hfind.memo.weaken fun _ hs => hs ▸ caching_of_empty rfl
  apply hbegin.bind
  intro c hc
  have hend : Gives (Both (Seen (xs.length - (xs.dropWhile pred).length)
      (!(xs.dropWhile pred).isEmpty) (skipCost charge pred xs))
      (Filled (At (xs.length - (xs.dropWhile pred).length)))) (removeIfEnd R fuel pred) AtEnd := by
    unfold removeIfEnd
    split
    next => exact Gives.memo.bind fun _ _ => h.end_.onFst
    next => exact h.end_.onFst
  apply Yields.bind hend
  intro last hlast
  have hsuffix := List.dropWhile_suffix pred (l := xs)
  have hloop := collect_walks h hfuel hlast (skipCost charge pred xs) hc
    (List.suffix_iff_eq_drop.mp hsuffix).symm not_of_head_dropWhile
    (Nat.lt_of_le_of_lt hsuffix.length_le hfuel)
  rw [skipCost_append, filter_dropWhile] at hloop
  exact hloop.weaken fun _ hs => ⟨hs.1, trivial⟩

end

/-! ## Over any pipeline -/

namespace Pipeline

variable (p : Pipeline α) {fuel : Nat}

/-- Whatever a program does with the view, it sees each element until it moves it out, and each
element is read from the pipeline once at most, and in order. -/
theorem cache1_reads_once (hwell : p.WellFormed fuel) (hfuel : p.longest < fuel) {husk : α → α}
    {ops : List VisitRequest} {v : Visit} {rs : List (VisitAnswer α)}
    (hrun : Responder.run (visits (p.denote[·]?) husk) ops .start = .ok (v, rs)) :
    ∃ s, cache1Program (p.compile fuel).metered husk ops
        (cache1 (p.compile fuel).metered).fresh = .ok (rs, s) ∧
      s.1.2.Sublist (p.denote.take v.reach) := by
  obtain ⟨Inv, At, AtEnd, h⟩ := p.lawful fuel hwell hfuel
  obtain ⟨_, s, hops, ⟨reads, hreads, hseen⟩, rfl⟩ :=
    cache1Program_yields h.walks_metered hrun _ rfl
  refine ⟨s, hops, ?_⟩
  have hlog : s.1.2 = reads.flatMap fun x => [x] := hseen.2
  rwa [hlog, List.flatMap_singleton']

theorem cache1_reads_once_evenSquares :
    ∃ s, cache1Program (evenSquares.compile 9).metered (fun _ => -1)
        [.look, .take, .look, .next, .next, .look, .atEnd]
        (cache1 (evenSquares.compile 9).metered).fresh =
      .ok ([.element 36, .element 36, .element (-1), .done, .done, .element 4, .truth false], s) ∧
      s.1.2.Sublist [36, 16, 4] :=
  cache1_reads_once evenSquares evenSquares_wellFormed (by decide) (v := ⟨2, true, 0⟩) rfl

/-- A filter over the view computes each element once, where the filter alone computes those that
it keeps a second time. -/
theorem filter_cache1_reads (hwell : p.WellFormed fuel) (hfuel : p.longest < fuel)
    (pred : α → Bool) :
    ∃ s s',
      (removeIf (cache1 (p.compile fuel).metered) fuel fun x => !pred x).elements fuel
          (removeIf (cache1 (p.compile fuel).metered) fuel fun x => !pred x).fresh =
        .ok (p.denote.filter pred, s) ∧
      (removeIf (p.compile fuel).metered fuel fun x => !pred x).elements fuel
          (removeIf (p.compile fuel).metered fuel fun x => !pred x).fresh =
        .ok (p.denote.filter pred, s') ∧
      s.1.1.2 = p.denote ∧
      s'.1.2 = p.denote.flatMap fun x => if pred x then [x, x] else [x] := by
  obtain ⟨Inv, At, AtEnd, h⟩ := p.lawful fuel hwell hfuel
  have hlength := Nat.lt_of_le_of_lt p.length_denote hfuel
  obtain ⟨_, s, hcached, hs, rfl⟩ :=
    elements_walks (walks_cache1 h.walks_metered) (fun x => !pred x) hlength _ rfl
  obtain ⟨_, s', hplain, hs', rfl⟩ :=
    elements_walks h.walks_metered (fun x => !pred x) hlength _ rfl
  simp only [Bool.not_not] at hcached hplain
  refine ⟨s, s', hcached, hplain, ?_, ?_⟩
  · have hlog : s.1.1.2 = p.denote.flatMap
        (filterCost (fun again x => if again then [] else [x]) fun x => !pred x) := hs.1.1.2
    have honce : ∀ x, filterCost (fun again x => if again then [] else [x]) (fun x => !pred x) x =
        [x] := fun x => by simp [filterCost]
    rw [hlog, funext honce, List.flatMap_singleton']
  · have hlog : s'.1.2 = p.denote.flatMap (filterCost (fun _ x => [x]) fun x => !pred x) :=
      hs'.1.2
    rw [hlog]
    congr 1
    funext x
    cases hx : pred x <;> simp [filterCost, hx]

theorem filter_cache1_reads_evenSquares :
    ∃ s s',
      (removeIf (cache1 (evenSquares.compile 9).metered) 9 fun x => !(x > (10 : Int))).elements 9
          (removeIf (cache1 (evenSquares.compile 9).metered) 9 fun x => !(x > (10 : Int))).fresh =
        .ok ([36, 16], s) ∧
      (removeIf (evenSquares.compile 9).metered 9 fun x => !(x > (10 : Int))).elements 9
          (removeIf (evenSquares.compile 9).metered 9 fun x => !(x > (10 : Int))).fresh =
        .ok ([36, 16], s') ∧
      s.1.1.2 = [36, 16, 4, 0] ∧ s'.1.2 = [36, 36, 16, 16, 4, 0] :=
  filter_cache1_reads evenSquares evenSquares_wellFormed (by decide) (· > (10 : Int))

end Pipeline

end EARanges.Adaptor
