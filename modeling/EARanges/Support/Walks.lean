import EARanges.Support.RangeModel

/-!
# What one pass over a range reads

`metered` keeps a log of the elements that are read from a range. `Walks` is the law of a single
pass whose reads are charged to a log: `charge` says what reading an element adds to it, the first
time and again. It asks less of a range than `Presents`: there is one iterator, and it goes
forward.
-/
namespace EARanges.Support

variable {β : Type}

/-- `Seen i again log`: the iterator is at the position `i`, whose element has been read if
`again`. -/
structure Walks (R : RangeModel β) (xs : List β) (At : Nat → R.Iter → Prop) (AtEnd : R.Sent → Prop)
    (Seen : Nat → Bool → List β → R.State → Prop) (charge : Bool → β → List β) : Prop where
  le : ∀ {i c}, At i c → i ≤ xs.length
  begin : Yields (· = R.fresh) R.begin (Seen 0 false []) (At 0)
  end_ : ∀ {i again log}, Gives (Seen i again log) R.end_ AtEnd
  reached : ∀ {i c e again log}, At i c → AtEnd e →
    Gives (Seen i again log) (R.reached c e) (· = decide (i = xs.length))
  read : ∀ {i c x again log}, At i c → xs[i]? = some x →
    Yields (Seen i again log) (R.read c) (Seen i true (log ++ charge again x)) (· = x)
  next : ∀ {i c again log}, At i c → i < xs.length →
    Yields (Seen i again log) (R.next c) (Seen (i + 1) false log) (At (i + 1))

namespace RangeModel

variable (R : RangeModel β)

/-- The range, with a log of what is read from it. -/
def metered : RangeModel β where
  State := R.State × List β
  Iter := R.Iter
  Sent := R.Sent
  caps := R.caps
  fresh := (R.fresh, [])
  begin := .onFst R.begin
  end_ := .onFst R.end_
  asIter := R.asIter
  read c := do
    let x ← .onFst (R.read c)
    .onSnd (modify (· ++ [x]))
    pure x
  next c := .onFst (R.next c)
  prev c := .onFst (R.prev c)
  equal c d := .onFst (R.equal c d)
  reached c e := .onFst (R.reached c e)
  advance n c := .onFst (R.advance n c)
  distanceTo c d := .onFst (R.distanceTo c d)
  distanceToEnd c e := .onFst (R.distanceToEnd c e)
  size := .onFst R.size
  jumpHook := R.jumpHook.map fun hook n c => .onFst (hook n c)

end RangeModel

theorem of_drop_eq_cons {xs rest : List β} {i : Nat} {x : β} (h : xs.drop i = x :: rest) :
    i < xs.length ∧ xs[i]? = some x ∧ xs.drop (i + 1) = rest := by
  have hx : xs[i]? = some x := by
    rw [← List.head?_drop, h, List.head?_cons]
  refine ⟨(List.getElem?_eq_some_iff.mp hx).1, hx, ?_⟩
  rw [← List.drop_drop, h, List.drop_succ_cons, List.drop_zero]

section
variable {R : RangeModel β} {xs : List β}

/-- Every read of a metered range is logged, however often the element has been read before. -/
theorem Presents.walks_metered {Inv : Phase → R.State → Prop} {At : Nat → R.Iter → Prop}
    {AtEnd : R.Sent → Prop} (h : Presents R xs Inv At AtEnd) :
    Walks R.metered xs At AtEnd (fun _ _ log => Both (Inv .live) (· = log)) fun _ x => [x] where
  le := h.le
  begin := by
    rintro _ rfl
    exact (h.begin.onFst) (R.fresh, []) ⟨h.fresh, rfl⟩
  end_ := (h.end_ .live).onFst
  reached hc he := (h.reached hc he).onFst
  read {i c x again log} hc hx := by
    apply Yields.bind (h.read hc hx).onFst
    rintro x rfl
    have hlog : Yields (Both (Inv .live) (· = log)) (.onSnd (modify (· ++ [x])))
        (Both (Inv .live) (· = log ++ [x])) fun _ => True := by
      rintro ⟨s, _⟩ ⟨hs, rfl⟩
      exact ⟨(), (s, _ ++ [x]), rfl, ⟨hs, rfl⟩, trivial⟩
    exact hlog.bind fun _ _ => Gives.pure rfl
  next hc hlt := (h.next hc hlt).onFst

/-- `if(it == last) … else …`. -/
theorem Walks.branch {At : Nat → R.Iter → Prop} {AtEnd : R.Sent → Prop}
    {Seen : Nat → Bool → List β → R.State → Prop} {charge : Bool → β → List β}
    (h : Walks R xs At AtEnd Seen charge) {γ : Type} {m m' : Effect R.State γ} {i : Nat}
    {c : R.Iter} {e : R.Sent} {again : Bool} {log : List β} {P : R.State → Prop} {Q : γ → Prop}
    (hc : At i c) (he : AtEnd e) (hend : i = xs.length → Yields (Seen i again log) m P Q)
    (hmore : i < xs.length → Yields (Seen i again log) m' P Q) :
    Yields (Seen i again log) (do if ← R.reached c e then m else m') P Q := by
  apply Yields.bind (h.reached hc he)
  rintro b rfl
  by_cases heq : i = xs.length
  · rw [decide_eq_true heq, if_pos rfl]
    exact hend heq
  · rw [decide_eq_false heq, if_neg Bool.false_ne_true]
    exact hmore (Nat.lt_of_le_of_ne (h.le hc) heq)

end

end EARanges.Support
