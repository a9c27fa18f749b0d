import EARanges.Adaptor.KeptView
import EARanges.View.AdjacentFilter

/-!
# `adjacent_filter_view` and `views::unique` of any range

view/adjacent_filter.hpp and view/unique.hpp over a base of any kind. Nothing is memoised: an
iterator that goes back looks at the base's own `begin`.
-/
namespace EARanges.Adaptor
open EARanges.Support EARanges.View

variable {α : Type}

section
variable (R : RangeModel α) (fuel : Nat) (pred : α → α → Bool)

/-- `pred(*left, *right)`. -/
def related (left right : R.Iter) : Effect R.State Bool := do
  let x ← R.read left
  let y ← R.read right
  pure (pred x y)

/-- `for(auto tmp = it; ++it != last; tmp = it) if(pred(*tmp, *it)) break`. -/
def adjacentNextLoop (last : R.Sent) : Nat → R.Iter → Effect R.State R.Iter
  | 0, _ => .ofExec (.error .fuel)
  | fuel + 1, tmp => do
    let it ← R.next tmp
    if ← R.reached it last then pure it
    else if ← related R pred tmp it then pure it
    else adjacentNextLoop last fuel it

def adjacentNext (it : R.Iter) : Effect R.State R.Iter := do
  let last ← R.end_
  let atEnd ← R.reached it last
  Effect.require (atEnd = false)
  adjacentNextLoop R pred last fuel it

/-- `while(it != first) { auto tmp = it; if(pred(*--tmp, *it)) break; it = tmp; }`. -/
def adjacentPrevLoop (first : R.Iter) : Nat → R.Iter → Effect R.State R.Iter
  | 0, _ => .ofExec (.error .fuel)
  | fuel + 1, it => do
    if ← R.equal it first then pure it
    else
      let tmp ← R.prev it
      if ← related R pred tmp it then pure it
      else adjacentPrevLoop first fuel tmp

def adjacentPrev (it : R.Iter) : Effect R.State R.Iter := do
  let first ← R.begin
  let atBegin ← R.equal it first
  Effect.require (atBegin = false)
  let it ← R.prev it
  adjacentPrevLoop R pred first fuel it

def adjacentFilter : RangeModel α :=
  keptView R () (.onFst R.begin) (.onFst R.end_) (fun it => .onFst (adjacentNext R fuel pred it))
    fun it => .onFst (adjacentPrev R fuel pred it)

/-- `adjacent_filter(rng, not_fn(pred))`. -/
def unique : RangeModel α := adjacentFilter R fuel fun x y => !pred x y

end

variable {R : RangeModel α} {xs : List α} {Inv : Phase → R.State → Prop}
  {At : Nat → R.Iter → Prop} {AtEnd : R.Sent → Prop} {fuel : Nat} {pred : α → α → Bool}

/-- The positions that the view keeps. -/
abbrev keptRelated (xs : List α) (pred : α → α → Bool) : Nat → Bool :=
  AdjacentFilterView.keeps ⟨xs, pred⟩

theorem firstFrom_related (xs : List α) (pred : α → α → Bool) :
    FirstFrom (keptRelated xs pred) xs 0 0 := by
  apply FirstFrom.refl
  rcases Nat.eq_zero_or_pos xs.length with hempty | hpos
  · exact .inl hempty.symm
  · exact .inr ⟨hpos, rfl⟩

theorem related_gives (h : Presents R xs Inv At AtEnd) {s : Nat} {left right : R.Iter}
    (hleft : At s left) (hright : At (s + 1) right) (hs : s + 1 < xs.length) :
    Gives (Inv .live) (related R pred left right) (· = keptRelated xs pred (s + 1)) := by
  have hx := List.getElem?_eq_getElem (Nat.lt_of_succ_lt hs)
  have hy := List.getElem?_eq_getElem hs
  have hkeeps := AdjacentFilterView.keeps_succ (v := ⟨xs, pred⟩) hx hy
  apply (h.read hleft hx).bind
  rintro x rfl
  apply (h.read hright hy).bind
  rintro y rfl
  exact .pure hkeeps.symm

theorem adjacentNextLoop_gives (h : Presents R xs Inv At AtEnd) {last : R.Sent}
    (hlast : AtEnd last) {s t fuel : Nat} {it : R.Iter} (hit : At s it) (hs : s < xs.length)
    (ht : FirstFrom (keptRelated xs pred) xs (s + 1) t) (hfuel : xs.length ≤ s + fuel) :
    Gives (Inv .live) (adjacentNextLoop R pred last fuel it) (At t) := by
  induction fuel generalizing s it with
  | zero => omega
  | succ fuel ih =>
    apply (h.next hit hs).bind
    intro c hc
    apply (h.reached hc hlast).bind
    rintro b rfl
    have hle := ht.le
    have hlength := ht.le_length
    by_cases hend : s + 1 = xs.length
    · rw [decide_eq_true hend, if_pos rfl]
      rw [show t = s + 1 by omega]
      exact .pure hc
    · have hlt : s + 1 < xs.length := Nat.lt_of_le_of_ne hs hend
      rw [decide_eq_false hend, if_neg Bool.false_ne_true]
      apply (related_gives h hit hc hlt).bind
      rintro b rfl
      by_cases heq : t = s + 1
      · subst heq
        rw [(ht.stands.resolve_left hend).2, if_pos rfl]
        exact .pure hc
      · rw [ht.between (s + 1) (Nat.le_refl _) (by omega), if_neg Bool.false_ne_true]
        refine ih hc hlt ⟨by omega, ht.stands, fun k hk hkt => ?_⟩ (by omega)
        exact ht.between k (Nat.le_of_succ_le hk) hkt

theorem adjacentNext_gives (h : Presents R xs Inv At AtEnd) (hfuel : xs.length < fuel) {s t : Nat}
    {it : R.Iter} (hit : At s it) (hs : s < xs.length)
    (ht : FirstFrom (keptRelated xs pred) xs (s + 1) t) :
    Gives (Inv .live) (adjacentNext R fuel pred it) (At t) := by
  apply (h.end_ .live).bind
  intro e he
  apply (h.reached hit he).bind
  rintro b rfl
  apply (Gives.require (decide_eq_false (Nat.ne_of_lt hs))).bind
  intro _ _
  exact adjacentNextLoop_gives h he hit hs ht (by omega)

/-- The first position is always kept, so there is one to go back to. -/
theorem adjacentPrevLoop_gives (h : Presents R xs Inv At AtEnd)
    (hbidir : R.caps.bidirectional = true) {first : R.Iter} (hfirst : At 0 first)
    {s t fuel : Nat} {it : R.Iter} (hit : At s it) (hs : s < xs.length)
    (ht : LastBefore (keptRelated xs pred) (s + 1) t) (hfuel : s < fuel) :
    Gives (Inv .live) (adjacentPrevLoop R pred first fuel it) (At t) := by
  induction fuel generalizing s it with
  | zero => omega
  | succ fuel ih =>
    have hlt := ht.lt
    apply (h.equal hit hfirst).bind
    rintro b rfl
    cases s with
    | zero =>
      rw [show t = 0 by omega]
      exact .pure hit
    | succ s =>
      rw [decide_eq_false (Nat.succ_ne_zero s), if_neg Bool.false_ne_true]
      apply (h.prev hbidir hit).bind
      intro c hc
      apply (related_gives h hc hit hs).bind
      rintro b rfl
      by_cases heq : t = s + 1
      · subst heq
        rw [ht.keeps, if_pos rfl]
        exact .pure hit
      · rw [ht.between (s + 1) (by omega) (Nat.lt_succ_self _), if_neg Bool.false_ne_true]
        refine ih hc (Nat.lt_of_succ_lt hs) ⟨by omega, ht.keeps, fun k hk hks => ?_⟩ (by omega)
        exact ht.between k hk (Nat.lt_succ_of_lt hks)

theorem adjacentPrev_gives (h : Presents R xs Inv At AtEnd) (hfuel : xs.length < fuel)
    (hbidir : R.caps.bidirectional = true) {i : Nat} {it : R.Iter}
    (hit : Passes xs (keptRelated xs pred) At (i + 1) it) :
    Gives (Inv .live) (adjacentPrev R fuel pred it) (Passes xs (keptRelated xs pred) At i) := by
  obtain ⟨s, hs, hat⟩ := hit
  have hle := hs.le
  have hpos : 0 < s := hs.first_lt (firstFrom_related xs pred)
  obtain ⟨t, ht, _⟩ : ∃ t, LastBefore (keptRelated xs pred) s t ∧ 0 ≤ t :=
    exists_lastBefore rfl hpos
  obtain ⟨s, rfl⟩ : ∃ n, s = n + 1 := ⟨s - 1, by omega⟩
  apply Gives.bind (h.begin.weaken h.idle)
  intro first hfirst
  apply (h.equal hat hfirst).bind
  rintro b rfl
  apply (Gives.require (decide_eq_false (Nat.succ_ne_zero s))).bind
  intro _ _
  apply (h.prev hbidir hat).bind
  intro c hc
  apply (adjacentPrevLoop_gives h hbidir hfirst hc hle ht (by omega)).mono
  exact fun c' hc' => ⟨t, hs.prev ht, hc'⟩

theorem adjacentFilter_presents (h : Presents R xs Inv At AtEnd) (hfuel : xs.length < fuel)
    (pred : α → α → Bool) :
    Presents (adjacentFilter R fuel pred) (AdjacentFilterView.related pred xs)
      (Uncached Inv)
      (Passes xs (keptRelated xs pred) At) AtEnd := by
  rw [← AdjacentFilterView.keptAt_eq ⟨xs, pred⟩]
  exact keptView_presents h _ ⟨h.fresh, trivial⟩ (fun s hs => ⟨h.idle _ hs.1, trivial⟩)
    (h.begin.mono (fun _ hs => hs) fun c hc => ⟨0, firstFrom_related xs pred, hc⟩).onFst
    (Gives.uncached h.end_) (fun hcommon hbidir => (h.endLive hcommon hbidir).onFst)
    (fun hit hs ht => .onFst (adjacentNext_gives h hfuel hit hs ht))
    fun hbidir _ _ hit => .onFst (adjacentPrev_gives h hfuel hbidir hit)

theorem lawful_adjacentFilter (h : Lawful R xs) (hfuel : xs.length < fuel)
    (pred : α → α → Bool) :
    Lawful (adjacentFilter R fuel pred) (AdjacentFilterView.related pred xs) := by
  obtain ⟨Inv, At, AtEnd, h⟩ := h
  exact ⟨_, _, _, adjacentFilter_presents h hfuel pred⟩

end EARanges.Adaptor
