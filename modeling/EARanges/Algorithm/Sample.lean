import EARanges.Random.UniformInt
import EARanges.Support.InPlace
import Mathlib.Data.List.Perm.Subperm

/-!
# `sample`

algorithm/sample.hpp. With the size of the population at hand the algorithm walks over it
and decides about each element (`sample_sized_impl`); without it, it fills the output and
then overwrites elements of it (the reservoir). Iterators into the population are indices.
The output of the sized path is the list of what has been written, that of the reservoir a
range of cells.
-/
namespace EARanges.Algorithm
open EARanges.Support EARanges.Iterator EARanges.Random

variable {α : Type} {bits : Nat}

/-- `copy_n`: the iterator behind what was copied, and the output. -/
def copyN (rng : List α) : Nat → Nat → List α → Exec (Nat × List α)
  | 0, first, out => .ok (first, out)
  | n + 1, first, out => do
    let x ← deref rng first
    copyN rng n (first + 1) (out ++ [x])

/-- The loop of `sample_sized_impl`; `next` is the state of the generator. -/
def sampleSizedLoop (g : WordStream bits) (rng : List α) :
    Nat → Nat → Int → List α → Int → Nat → Exec (Nat × List α)
  | 0, _, _, _, _, _ => .error .fuel
  | fuel + 1, first, popSize, out, sampleSize, next =>
    if first = rng.length then .ok (first, out)
    else if sampleSize ≥ popSize then copyN rng popSize.toNat first out
    else do
      let (i, next) ← drawUpTo g (popSize - 1) (fuel + 1) next
      if i < sampleSize then do
        let x ← deref rng first
        if sampleSize - 1 = 0 then .ok (first, out ++ [x])
        else sampleSizedLoop g rng fuel (first + 1) (popSize - 1) (out ++ [x]) (sampleSize - 1) next
      else sampleSizedLoop g rng fuel (first + 1) (popSize - 1) out sampleSize next

def sampleSizedImpl (g : WordStream bits) (rng : List α) (popSize sampleSize : Int) (fuel : Nat) :
    Exec (Nat × List α) :=
  if popSize > 0 ∧ sampleSize > 0 then sampleSizedLoop g rng fuel 0 popSize [] sampleSize 0
  else .ok (0, [])

/-- `sample` on forward iterators and on iterators with a sized sentinel. -/
def sampleSized (g : WordStream bits) (rng : List α) (n : Int) (fuel : Nat) :
    Exec (Nat × List α) := sampleSizedImpl g rng rng.length n fuel

/-- Where `sample` stands on the other iterators: the iterator into the population, the
cells of the output, and the iterator `out` once it has been advanced. -/
structure Reservoir (α : Type) where
  first : Nat
  cells : List α
  out : Option Nat

/-- `for(i = 0; i < n; ++i, ++first)`. -/
def fillReservoir (rng : List α) : Nat → Nat → Nat → List α → Exec (Reservoir α)
  | 0, _, first, cells => .ok ⟨first, cells, none⟩
  | n + 1, i, first, cells =>
    if first = rng.length then .ok ⟨first, cells, some i⟩
    else do
      let x ← deref rng first
      let cells ← assign cells i x
      fillReservoir rng n (i + 1) (first + 1) cells

/-- `if(i < n) *next(out, i) = *first`. -/
def storeAt (rng cells : List α) (first : Nat) (n i : Int) : Exec (List α) :=
  if i < n then
    if 0 ≤ i then do
      let x ← deref rng first
      assign cells i.toNat x
    else .error .fault
  else .ok cells

/-- `for(pop_size = n; first != last; ++first, ++pop_size)`. -/
def replaceLoop (g : WordStream bits) (rng : List α) (n : Int) :
    Nat → Nat → Int → List α → Nat → Exec (Nat × List α)
  | 0, _, _, _, _ => .error .fuel
  | fuel + 1, first, popSize, cells, next =>
    if first = rng.length then .ok (first, cells)
    else do
      let (i, next) ← drawUpTo g popSize (fuel + 1) next
      let cells ← storeAt rng cells first n i
      replaceLoop g rng n fuel (first + 1) (popSize + 1) cells next

/-- `sample` on single-pass iterators: the two iterators returned and the cells. -/
def sampleReservoir (g : WordStream bits) (rng : List α) (n : Nat) (cells : List α) (fuel : Nat) :
    Exec (Nat × Nat × List α) :=
  if n > 0 then do
    let r ← fillReservoir rng n 0 0 cells
    match r.out with
    | some i => .ok (r.first, i, r.cells)
    | none => do
      let (first, cells) ← replaceLoop g rng n fuel r.first n r.cells 0
      .ok (first, n, cells)
  else .ok (0, 0, cells)

/-! ## Selection -/

theorem copyN_eq {rng : List α} {n first : Nat} (h : first + n ≤ rng.length) (out : List α) :
    copyN rng n first out = .ok (first + n, out ++ (rng.drop first).take n) := by
  induction n generalizing first out with
  | zero => rw [copyN, List.take_zero, List.append_nil]; rfl
  | succ n ih =>
    have hlt : first < rng.length := by omega
    rw [copyN, deref_eq hlt, exec_bind_ok, ih (by omega), List.drop_eq_getElem_cons hlt,
      List.take_succ_cons, List.append_assoc, List.singleton_append, Nat.add_right_comm]
    rfl

/-- A turn in which not all that is left is selected. -/
theorem sampleSizedLoop_turn (g : WordStream bits) {rng : List α} {first k sampleSize : Nat}
    (hlt : first < rng.length) (hmax : (k : Int) ≤ diffMax) (hpos : 0 < sampleSize)
    (hsome : sampleSize < k + 1) (fuel : Nat) (out : List α) (next : Nat) :
    sampleSizedLoop g rng (fuel + 1) first (k + 1 : Nat) out sampleSize next =
      if mulShift (g.word next) k < sampleSize then
        if sampleSize = 1 then .ok (first, out ++ [rng[first]])
        else sampleSizedLoop g rng fuel (first + 1) k (out ++ [rng[first]]) (sampleSize - 1 : Nat)
          (next + 1)
      else sampleSizedLoop g rng fuel (first + 1) k out sampleSize (next + 1) := by
  have hpop : ((k + 1 : Nat) - 1 : Int) = k := by omega
  have hsample : ((sampleSize : Int) - 1) = (sampleSize - 1 : Nat) := by omega
  rw [sampleSizedLoop, if_neg (Nat.ne_of_lt hlt), if_neg (by omega), hpop, drawUpTo_eq g hmax,
    exec_bind_ok]
  dsimp only
  by_cases hselect : mulShift (g.word next) k < sampleSize
  · rw [if_pos hselect, if_pos (Int.ofNat_lt.mpr hselect), deref_eq hlt, exec_bind_ok, hsample]
    by_cases hlast : sampleSize = 1
    · rw [if_pos hlast, if_pos (by omega)]
    · rw [if_neg hlast, if_neg (by omega)]
  · rw [if_neg hselect, if_neg (mt Int.ofNat_lt.mp hselect)]

/-- Of the population that is left, as many are selected as are still wanted. -/
theorem sampleSizedLoop_ok (g : WordStream bits) {rng : List α}
    (hmax : (rng.length : Int) ≤ diffMax) (first sampleSize : Nat) (hfirst : first ≤ rng.length)
    (hpos : 0 < sampleSize)
    (out : List α) (next : Nat) :
    ∃ first' zs, zs.Sublist (rng.drop first) ∧ zs.length = min sampleSize (rng.length - first) ∧
      ∀ fuel, sampleSizedLoop g rng (rng.length - first + 1 + fuel) first
          (rng.length - first : Nat) out sampleSize next = .ok (first', out ++ zs) := by
  induction hk : rng.length - first generalizing first sampleSize out next with
  | zero =>
    refine ⟨first, [], List.nil_sublist _, by rw [Nat.min_zero]; rfl, fun fuel => ?_⟩
    rw [Nat.zero_add, Nat.add_comm, sampleSizedLoop, if_pos (by omega), List.append_nil]
  | succ k ih =>
    have hlt : first < rng.length := by omega
    have hk' : rng.length - (first + 1) = k := by omega
    have hfuel : ∀ fuel, k + 1 + 1 + fuel = (k + 1 + fuel) + 1 := fun fuel => by omega
    by_cases hall : k + 1 ≤ sampleSize
    · -- everything that is left is copied
      refine ⟨first + (k + 1), (rng.drop first).take (k + 1), List.take_sublist _ _, ?_,
        fun fuel => ?_⟩
      · rw [List.length_take, List.length_drop]
        omega
      · rw [hfuel, sampleSizedLoop, if_neg (Nat.ne_of_lt hlt), if_pos (by omega)]
        exact copyN_eq (by omega) out
    have hturn := sampleSizedLoop_turn g hlt (k := k) (by omega) hpos (by omega)
    rw [List.drop_eq_getElem_cons hlt]
    by_cases hselect : mulShift (g.word next) k < sampleSize
    · by_cases hlast : sampleSize = 1
      · refine ⟨first, [rng[first]], List.singleton_sublist.mpr (List.mem_cons_self ..), ?_,
          fun fuel => ?_⟩
        · rw [List.length_singleton]
          omega
        · rw [hfuel, hturn, if_pos hselect, if_pos hlast]
      · obtain ⟨first', zs, hsub, hlen, hrun⟩ := ih (first + 1) (sampleSize - 1) hlt
          (by omega) (out ++ [rng[first]]) (next + 1) hk'
        refine ⟨first', rng[first] :: zs, hsub.cons_cons _, ?_, fun fuel => ?_⟩
        · rw [List.length_cons, hlen]
          omega
        · rw [hfuel, hturn, if_pos hselect, if_neg hlast, hrun fuel, List.append_assoc,
            List.singleton_append]
    · obtain ⟨first', zs, hsub, hlen, hrun⟩ := ih (first + 1) sampleSize hlt hpos out (next + 1) hk'
      refine ⟨first', zs, hsub.cons _, ?_, fun fuel => ?_⟩
      · rw [hlen]
        omega
      · rw [hfuel, hturn, if_neg hselect, hrun fuel]

/-- The sized path writes a subsequence of the population, whatever is drawn. -/
theorem sampleSized_returns (g : WordStream bits) {rng : List α}
    (hmax : (rng.length : Int) ≤ diffMax) (n : Nat) :
    ∃ first out, Returns (sampleSized g rng n) (first, out) ∧ out.Sublist rng ∧
      out.length = min n rng.length := by
  unfold sampleSized sampleSizedImpl
  by_cases hpos : (rng.length : Int) > 0 ∧ (n : Int) > 0
  · obtain ⟨first, out, hsub, hlen, hrun⟩ := sampleSizedLoop_ok g hmax 0 n
      (Nat.zero_le _) (by omega) [] 0
    refine ⟨first, out, .of_forall (rng.length - 0 + 1) fun fuel => ?_, hsub, hlen⟩
    rw [if_pos hpos]
    exact hrun fuel
  · refine ⟨0, [], ⟨0, fun fuel _ => if_neg hpos⟩, List.nil_sublist _, ?_⟩
    rw [List.length_nil]
    omega

/-! ## The reservoir -/

theorem fillReservoir_ok {rng cells : List α} (n : Nat) {i : Nat} (hi : i ≤ rng.length)
    (hcells : min (i + n) rng.length ≤ cells.length) :
    fillReservoir rng n i i (rng.take i ++ cells.drop i) =
      .ok ⟨min (i + n) rng.length,
        rng.take (min (i + n) rng.length) ++ cells.drop (min (i + n) rng.length),
        if i + n ≤ rng.length then none else some rng.length⟩ := by
  induction n generalizing i with
  | zero =>
    rw [fillReservoir, Nat.add_zero, Nat.min_eq_left hi, if_pos hi]
  | succ n ih =>
    rcases Nat.lt_or_eq_of_le hi with hlt | rfl
    · have hicells : i < cells.length := by omega
      have hlen : (rng.take i).length = i := List.length_take_of_le hi
      have hstore : assign (rng.take i ++ cells.drop i) i rng[i] =
          .ok (rng.take (i + 1) ++ cells.drop (i + 1)) := by
        rw [List.drop_eq_getElem_cons hicells, List.take_succ_eq_append_getElem hlt,
          List.append_assoc]
        have happend := assign_append (rng.take i) cells[i] rng[i] (cells.drop (i + 1))
        rwa [hlen] at happend
      rw [fillReservoir, if_neg (Nat.ne_of_lt hlt), deref_eq hlt, exec_bind_ok, hstore,
        exec_bind_ok, ih hlt (by omega), Nat.add_right_comm i 1 n, Nat.add_assoc]
    · have hend : min (rng.length + (n + 1)) rng.length = rng.length := by omega
      rw [fillReservoir, if_pos rfl, hend, if_neg (by omega)]

/-- Overwriting a cell by the next element of the population. -/
theorem subperm_set {rng cells : List α} {first i : Nat} (hfirst : first < rng.length)
    (hi : i < cells.length) (h : cells.Subperm (rng.take first)) :
    (cells.set i rng[first]).Subperm (rng.take (first + 1)) := by
  have hcells : (cells.set i rng[first]).Perm (rng[first] :: cells.eraseIdx i) :=
    List.set_perm_cons_eraseIdx hi _
  have hrest : (cells.eraseIdx i).Subperm (rng.take first) :=
    (List.eraseIdx_sublist cells i).subperm.trans h
  have htake : (rng[first] :: rng.take first).Perm (rng.take (first + 1)) := by
    rw [List.take_succ_eq_append_getElem hfirst]
    exact (List.perm_append_singleton _ _).symm
  exact hcells.subperm.trans (((List.subperm_cons _).mpr hrest).trans htake.subperm)

/-- The cells keep elements from distinct positions in front of `first`. -/
theorem replaceLoop_ok (g : WordStream bits) {rng : List α} (hmax : (rng.length : Int) ≤ diffMax)
    {n : Nat} (first : Nat) (cells : List α) (hfirst : first ≤ rng.length)
    (hcells : cells.length = n)
    (hsub : cells.Subperm (rng.take first)) (next : Nat) :
    ∃ out : List α, out.length = n ∧ out.Subperm rng ∧
      ∀ fuel, replaceLoop g rng n (rng.length - first + 1 + fuel) first first cells next =
        .ok (rng.length, out) := by
  induction hk : rng.length - first generalizing first cells next with
  | zero =>
    have hend : first = rng.length := by omega
    refine ⟨cells, hcells, ?_, fun fuel => ?_⟩
    · rwa [hend, List.take_length] at hsub
    · rw [Nat.zero_add, Nat.add_comm, replaceLoop, if_pos hend, hend]
  | succ k ih =>
    have hlt : first < rng.length := by omega
    have hfuel : ∀ fuel, k + 1 + 1 + fuel = (k + 1 + fuel) + 1 := fun fuel => by omega
    have hdraw := fun fuel => drawUpTo_eq g (n := first) (by omega) fuel next
    by_cases hin : mulShift (g.word next) first < n
    · have hstore : storeAt rng cells first n (mulShift (g.word next) first : Nat) =
          .ok (cells.set (mulShift (g.word next) first) rng[first]) := by
        rw [storeAt, if_pos (Int.ofNat_lt.mpr hin), if_pos (Int.natCast_nonneg _), deref_eq hlt,
          exec_bind_ok, Int.toNat_natCast, assign_eq (hcells ▸ hin)]
      obtain ⟨out, hlen, hout, hrun⟩ := ih (first + 1)
        (cells.set (mulShift (g.word next) first) rng[first]) hlt
        (by rw [List.length_set, hcells]) (subperm_set hlt (hcells ▸ hin) hsub) (next + 1)
        (by omega)
      refine ⟨out, hlen, hout, fun fuel => ?_⟩
      rw [hfuel, replaceLoop, if_neg (Nat.ne_of_lt hlt), hdraw, exec_bind_ok]
      dsimp only
      rw [hstore, exec_bind_ok]
      exact hrun fuel
    · have hstore : storeAt rng cells first n (mulShift (g.word next) first : Nat) = .ok cells :=
        if_neg (mt Int.ofNat_lt.mp hin)
      have hgrow : (rng.take first).Sublist (rng.take (first + 1)) :=
        List.take_sublist_take_left (Nat.le_succ first)
      obtain ⟨out, hlen, hout, hrun⟩ := ih (first + 1) cells hlt hcells
        (hsub.trans hgrow.subperm) (next + 1) (by omega)
      refine ⟨out, hlen, hout, fun fuel => ?_⟩
      rw [hfuel, replaceLoop, if_neg (Nat.ne_of_lt hlt), hdraw, exec_bind_ok]
      dsimp only
      rw [hstore, exec_bind_ok]
      exact hrun fuel

/-- With as many cells as there are elements to write, none outside them is written, and
in the end they hold elements from distinct positions of the population. -/
theorem sampleReservoir_returns (g : WordStream bits) {rng : List α}
    (hmax : (rng.length : Int) ≤ diffMax) (n : Nat) {cells : List α}
    (hcells : cells.length = min n rng.length) :
    ∃ first out, Returns (sampleReservoir g rng n cells) (first, min n rng.length, out) ∧
      out.Subperm rng ∧ out.length = min n rng.length := by
  by_cases hzero : n = 0
  · refine ⟨0, cells, ⟨0, fun fuel _ => ?_⟩, ?_, hcells⟩
    · rw [sampleReservoir, if_neg (by omega)]
      congr 3
      omega
    · rw [List.eq_nil_of_length_eq_zero (by omega : cells.length = 0)]
      exact List.nil_subperm
  have hfill := fillReservoir_ok n (Nat.zero_le rng.length)
    (show min (0 + n) rng.length ≤ cells.length by omega)
  rw [List.take_zero, List.nil_append, List.drop_zero, Nat.zero_add, ← hcells, List.drop_length,
    List.append_nil, hcells] at hfill
  by_cases henough : n ≤ rng.length
  · rw [if_pos henough, Nat.min_eq_left henough] at hfill
    obtain ⟨out, hlen, hsub, hrun⟩ := replaceLoop_ok g hmax n _ henough
      (List.length_take_of_le henough) (List.Subperm.refl _) 0
    rw [Nat.min_eq_left henough]
    refine ⟨rng.length, out, .of_forall (rng.length - n + 1) fun fuel => ?_, hsub, hlen⟩
    rw [sampleReservoir, if_pos (by omega), hfill, exec_bind_ok]
    dsimp only
    rw [hrun fuel, exec_bind_ok]
  · rw [if_neg henough, Nat.min_eq_right (by omega), List.take_length] at hfill
    rw [Nat.min_eq_right (by omega)]
    refine ⟨rng.length, rng, ⟨0, fun fuel _ => ?_⟩, List.Subperm.refl _, rfl⟩
    rw [sampleReservoir, if_pos (by omega), hfill, exec_bind_ok]

end EARanges.Algorithm
