import EARanges.Support.Reversal
import Mathlib.Algebra.BigOperators.Fin
import Mathlib.Logic.Function.Iterate

/-!
# `seed_seq_fe`

utility/random.hpp, for words of 32 bits. Every hash and every mix of `mix_entropy` can be
undone, and `param` undoes them from the last to the first: the entropy store is a
bijection of as many seed words as it has.
-/
namespace EARanges.Random
open EARanges.Support

abbrev Word := BitVec 32

/-- `fast_exp`. -/
def fastExp (x power : Word) (result : Word) : Word :=
  if power = 0 then result
  else fastExp (x * x) (power >>> 1) (result * if power &&& 1 ≠ 0 then x else 1)
termination_by power.toNat
decreasing_by
  have hpos : power.toNat ≠ 0 := fun hzero => ‹¬ power = 0› (BitVec.eq_of_toNat_eq hzero)
  rw [BitVec.toNat_ushiftRight, Nat.shiftRight_eq_div_pow]
  omega

theorem fastExp_eq (x power result : Word) :
    fastExp x power result = result * x ^ power.toNat := by
  induction hn : power.toNat using Nat.strong_induction_on generalizing x power result with
  | _ n ih =>
    subst hn
    rw [fastExp]
    by_cases hpower : power = 0
    · subst hpower
      rw [if_pos rfl]
      exact (mul_one result).symm
    · have hpos : power.toNat ≠ 0 := fun hzero => hpower (BitVec.eq_of_toNat_eq hzero)
      have hhalf : (power >>> 1).toNat = power.toNat / 2 := by
        rw [BitVec.toNat_ushiftRight, Nat.shiftRight_eq_div_pow]
      have hlow : (power &&& 1 ≠ 0) ↔ power.toNat % 2 = 1 := by
        rw [ne_eq, ← BitVec.toNat_inj, BitVec.toNat_and]
        change ¬ power.toNat &&& 1 = 0 ↔ _
        rw [Nat.and_one_is_mod]
        omega
      rw [if_neg hpower, ih _ (by omega) _ _ _ rfl, hhalf, ← pow_two, ← pow_mul, mul_assoc]
      congr 1
      split
      · next hodd =>
        rw [← pow_succ', ← Nat.mod_add_div power.toNat 2, hlow.mp hodd]
        congr 1
        omega
      · next heven =>
        have hmod : power.toNat % 2 = 0 := by
          rw [hlow] at heven
          omega
        rw [one_mul, Nat.mul_div_cancel' (Nat.dvd_of_mod_eq_zero hmod)]

/-- The `2 ^ 32 - 1`-th power is the inverse of an odd word. -/
theorem mul_fastExp {x : Word} (hx : Odd x) : x * fastExp x (-1) 1 = 1 := by
  rw [fastExp_eq, one_mul]
  exact odd_mul_pow hx

namespace SeedSeqFe

def initA : Word := 0x43b0d7e5
def multA : Word := 0x931e8875
def initB : Word := 0x8b51f9dd
def multB : Word := 0x58f38ded
def mixMultL : Word := 0xca01f9dd
def mixMultR : Word := 0x4973f715
def xShift : Nat := 32 / 2

theorem odd_initA : Odd initA := ⟨0x21d86bf2, by decide⟩
theorem odd_multA : Odd multA := ⟨0x498f443a, by decide⟩
theorem odd_initB : Odd initB := ⟨0x45a8fcee, by decide⟩
theorem odd_multB : Odd multB := ⟨0x2c79c6f6, by decide⟩
theorem odd_mixMultL : Odd mixMultL := ⟨0x6500fcee, by decide⟩
theorem odd_mixMultR : Odd mixMultR := ⟨0x24b9fb8a, by decide⟩

def mixRounds (count : Nat) : Nat := 1 + if count ≤ 2 then 1 else 0

/-- The hash of a word, with the next `hash_const`. -/
def hashBy (mult hashConst value : Word) : Word × Word :=
  let value := value ^^^ hashConst
  let hashConst := hashConst * mult
  let value := value * hashConst
  (hashConst, xorShift xShift value)

def hash (hashConst value : Word) : Word × Word := hashBy multA hashConst value

def mix (x y : Word) : Word := xorShift xShift (mixMultL * x - mixMultR * y)

/-- `mixer_` and the `hash_const` of a run over it. -/
structure Mixing (count : Nat) where
  hashConst : Word
  mixer : Vector Word count
  deriving DecidableEq

/-- The words between `first` and `last`: a seed, or `mixer_` itself. -/
inductive Words where
  | seed (words : List Word)
  | mixer

variable {count : Nat}

/-- `*first` after `k` increments, if `last` is not reached. -/
def Words.read (words : Words) (mixer : Vector Word count) (k : Nat) : Option Word :=
  match words with
  | .seed words => words[k]?
  | .mixer => mixer[k]?

/-- What is left after a word for each element of `mixer_`. -/
def Words.rest (count : Nat) : Words → List Word
  | .seed words => words.drop count
  | .mixer => []

def hashElem (words : Words) (s : Mixing count) (k : Fin count) : Mixing count :=
  let value := match words.read s.mixer k with
    | some word => word
    | none => 0
  let (hashConst, value) := hash s.hashConst value
  ⟨hashConst, s.mixer.set k value⟩

/-- `dest = mix(dest, hash(word))`. -/
def mixDest (word : Word) (s : Mixing count) (dest : Fin count) : Mixing count :=
  let (hashConst, hashed) := hash s.hashConst word
  ⟨hashConst, s.mixer.set dest (mix s.mixer[dest] hashed)⟩

def mixPair (src : Fin count) (s : Mixing count) (dest : Fin count) : Mixing count :=
  if src ≠ dest then mixDest s.mixer[src] s dest else s

def hashElems (words : Words) (s : Mixing count) : Mixing count :=
  (List.finRange count).foldl (hashElem words) s

def mixPairs (s : Mixing count) : Mixing count :=
  (List.finRange count).foldl (fun s src => (List.finRange count).foldl (mixPair src) s) s

/-- A word that is mixed into every element. -/
def mixWord (s : Mixing count) (word : Word) : Mixing count :=
  (List.finRange count).foldl (mixDest word) s

/-- `mix_entropy`. -/
def mixEntropy (mixer : Vector Word count) (words : Words) : Vector Word count :=
  let s := hashElems words ⟨initA, mixer⟩
  let s := mixPairs s
  let s := (words.rest count).foldl mixWord s
  s.mixer

def stir (mixer : Vector Word count) : Vector Word count := mixEntropy mixer .mixer

/-- `mixer` is what the store holds before, if anything. -/
def seed (mixer : Vector Word count) (words : List Word) : Vector Word count :=
  stir^[mixRounds count - 1] (mixEntropy mixer (.seed words))

/-- The word at `src`, and at the elements after it, for as many words as are asked for. -/
def generateFrom (mixer : Vector Word count) : Nat → Fin count → Word → List Word
  | 0, _, _ => []
  | n + 1, src, hashConst =>
    let dataval := mixer[src]
    let src := if hnext : src + 1 < count then ⟨src + 1, hnext⟩ else ⟨0, src.pos⟩
    let (hashConst, dataval) := hashBy multB hashConst dataval
    dataval :: generateFrom mixer n src hashConst

/-- `generate` into `n` words. -/
def generate (hcount : 0 < count) (mixer : Vector Word count) (n : Nat) : List Word :=
  generateFrom mixer n ⟨0, hcount⟩ initB

def invA : Word := fastExp multA (-1) 1
def mixInvL : Word := fastExp mixMultL (-1) 1

/-- The hash of `word` is taken out of `*rdest`. -/
def unmixDest (word : Word) (s : Mixing count) (rdest : Fin count) : Mixing count :=
  let revhashed := word
  let multConst := s.hashConst
  let hashConst := s.hashConst * invA
  let revhashed := revhashed ^^^ hashConst
  let revhashed := revhashed * multConst
  let revhashed := xorShift xShift revhashed
  let unmixed := s.mixer[rdest]
  let unmixed := xorShift xShift unmixed
  let unmixed := unmixed + mixMultR * revhashed
  let unmixed := unmixed * mixInvL
  ⟨hashConst, s.mixer.set rdest unmixed⟩

def unmixPair (src : Fin count) (s : Mixing count) (rdest : Fin count) : Mixing count :=
  if src ≠ rdest then unmixDest s.mixer[src] s rdest else s

def unhashElem (s : Mixing count) (k : Fin count) : Mixing count :=
  let unhashed := s.mixer[k]
  let unhashed := xorShift xShift unhashed
  let unhashed := unhashed * fastExp s.hashConst (-1) 1
  let hashConst := s.hashConst * invA
  let unhashed := unhashed ^^^ hashConst
  ⟨hashConst, s.mixer.set k unhashed⟩

def unmixPairs (s : Mixing count) : Mixing count :=
  (List.finRange count).reverse.foldl
    (fun s src => (List.finRange count).reverse.foldl (unmixPair src) s) s

def unhashElems (s : Mixing count) : Mixing count :=
  (List.finRange count).reverse.foldl unhashElem s

/-- One round of `param`. -/
def backtrack (mixer : Vector Word count) : Vector Word count :=
  let hashConst := initA * fastExp multA (BitVec.ofNat 32 (count * count)) 1
  let s := unmixPairs ⟨hashConst, mixer⟩
  let s := unhashElems s
  s.mixer

/-- `param`. -/
def param (mixer : Vector Word count) : Vector Word count := backtrack^[mixRounds count] mixer

/-! ## Single words -/

theorem mul_invA (x : Word) : x * multA * invA = x := by
  rw [mul_assoc, invA, mul_fastExp odd_multA, mul_one]

theorem invA_mul (x : Word) : x * invA * multA = x := by
  rw [mul_assoc, mul_comm invA, invA, mul_fastExp odd_multA, mul_one]

theorem odd_invA : Odd invA := by
  rw [invA, fastExp_eq, one_mul]
  exact odd_multA.pow

/-- The hash is undone as `param` undoes it. -/
theorem unhash_hashBy {mult hashConst : Word} (hmult : Odd mult) (hodd : Odd hashConst)
    (value : Word) :
    (xorShift xShift (hashBy mult hashConst value).2 * fastExp (hashConst * mult) (-1) 1) ^^^
      hashConst = value := by
  dsimp only [hashBy]
  rw [xorShift_xorShift (by decide), mul_assoc, mul_fastExp (hodd.mul hmult), mul_one,
    BitVec.xor_assoc, BitVec.xor_self, BitVec.xor_zero]

theorem hashBy_unhash {mult hashConst : Word} (hmult : Odd mult) (hodd : Odd hashConst)
    (value : Word) :
    (hashBy mult hashConst
      ((xorShift xShift value * fastExp (hashConst * mult) (-1) 1) ^^^ hashConst)).2 = value := by
  dsimp only [hashBy]
  rw [BitVec.xor_assoc, BitVec.xor_self, BitVec.xor_zero, mul_assoc,
    mul_comm (fastExp _ _ _), mul_fastExp (hodd.mul hmult), mul_one, xorShift_xorShift (by decide)]

theorem hashBy_inj {mult hashConst : Word} (hmult : Odd mult) (hodd : Odd hashConst)
    {value value' : Word} (h : (hashBy mult hashConst value).2 = (hashBy mult hashConst value').2) :
    value = value' := by
  rw [← unhash_hashBy hmult hodd value, h, unhash_hashBy hmult hodd]

theorem unmix_mix (x y : Word) : (xorShift xShift (mix x y) + mixMultR * y) * mixInvL = x := by
  rw [mix, xorShift_xorShift (by decide), sub_add_cancel, mul_comm mixMultL, mul_assoc, mixInvL,
    mul_fastExp odd_mixMultL, mul_one]

theorem mix_unmix (x y : Word) : mix ((xorShift xShift x + mixMultR * y) * mixInvL) y = x := by
  rw [mix, mul_comm mixMultL, mul_assoc, mul_comm mixInvL, mixInvL, mul_fastExp odd_mixMultL,
    mul_one, add_sub_cancel_right, xorShift_xorShift (by decide)]

theorem mix_inj_right {x y y' : Word} (h : mix x y = mix x y') : y = y' := by
  have hsub : mixMultL * x - mixMultR * y = mixMultL * x - mixMultR * y' := by
    rw [← @xorShift_xorShift 32 xShift (by decide) (mixMultL * x - mixMultR * y)]
    exact (congrArg (xorShift xShift) h).trans (xorShift_xorShift (by decide) _)
  apply mul_odd_cancel odd_mixMultR
  rw [mul_comm y, mul_comm y']
  exact sub_right_injective hsub

/-! ## Steps over the store -/

/-- Every `hash_const` of a run is odd. -/
def OddConst (s : Mixing count) : Prop := Odd s.hashConst

theorem hashElem_mixer (s : Mixing count) (k : Fin count) :
    hashElem .mixer s k =
      ⟨s.hashConst * multA, s.mixer.set k (hash s.hashConst s.mixer[k]).2⟩ := by
  have hread : Words.mixer.read s.mixer k = some s.mixer[k] := Vector.getElem?_eq_getElem k.isLt
  unfold hashElem
  rw [hread]
  rfl

theorem hashElem_undoes (k : Fin count) :
    Undoes OddConst (fun s : Mixing count => hashElem .mixer s k) (fun s => unhashElem s k) where
  keeps s hs := Odd.mul hs odd_multA
  undo s hs := by
    have hvalue := unhash_hashBy odd_multA hs s.mixer[k]
    rw [hashElem_mixer]
    simp only [unhashElem, Fin.getElem_fin, Vector.getElem_set_self, mul_invA, Vector.set_set]
    rw [hash, Fin.getElem_fin] at *
    rw [hvalue, Vector.set_getElem_self]

theorem unhashElem_undoes (k : Fin count) :
    Undoes OddConst (fun s : Mixing count => unhashElem s k) (fun s => hashElem .mixer s k) where
  keeps s hs := Odd.mul hs odd_invA
  undo s hs := by
    have hinv : Odd (s.hashConst * invA) := Odd.mul hs odd_invA
    have hvalue := hashBy_unhash odd_multA hinv s.mixer[k]
    rw [invA_mul] at hvalue
    rw [hashElem_mixer]
    simp only [unhashElem, Fin.getElem_fin, Vector.getElem_set_self, invA_mul, Vector.set_set]
    rw [hash]
    rw [Fin.getElem_fin] at hvalue
    rw [hvalue, Vector.set_getElem_self]

theorem mixDest_undoes (word : Word) (dest : Fin count) :
    Undoes OddConst (fun s : Mixing count => mixDest word s dest)
      (fun s => unmixDest word s dest) where
  keeps s hs := Odd.mul hs odd_multA
  undo s hs := by
    simp only [mixDest, unmixDest, hash, hashBy, Fin.getElem_fin, Vector.getElem_set_self, mul_invA,
      Vector.set_set, unmix_mix, Vector.set_getElem_self]

theorem unmixDest_undoes (word : Word) (dest : Fin count) :
    Undoes OddConst (fun s : Mixing count => unmixDest word s dest)
      (fun s => mixDest word s dest) where
  keeps s hs := Odd.mul hs odd_invA
  undo s hs := by
    simp only [mixDest, unmixDest, hash, hashBy, Fin.getElem_fin, Vector.getElem_set_self, invA_mul,
      Vector.set_set, mix_unmix, Vector.set_getElem_self]

theorem mixDest_getElem_ne (word : Word) (s : Mixing count) {dest k : Fin count} (hne : dest ≠ k) :
    (mixDest word s dest).mixer[k] = s.mixer[k] :=
  Vector.getElem_set_ne dest.isLt k.isLt (Fin.val_ne_of_ne hne)

theorem unmixDest_getElem_ne (word : Word) (s : Mixing count) {dest k : Fin count}
    (hne : dest ≠ k) : (unmixDest word s dest).mixer[k] = s.mixer[k] :=
  Vector.getElem_set_ne dest.isLt k.isLt (Fin.val_ne_of_ne hne)

theorem mixPair_undoes (src dest : Fin count) :
    Undoes OddConst (fun s => mixPair src s dest) (fun s => unmixPair src s dest) := by
  by_cases hne : src ≠ dest
  · simp only [mixPair, unmixPair, if_pos hne]
    refine ⟨fun s hs => (mixDest_undoes _ dest).keeps s hs, fun s hs => ?_⟩
    rw [mixDest_getElem_ne _ s hne.symm]
    exact (mixDest_undoes _ dest).undo s hs
  · simp only [mixPair, unmixPair, if_neg hne]
    exact .id

theorem unmixPair_undoes (src dest : Fin count) :
    Undoes OddConst (fun s => unmixPair src s dest) (fun s => mixPair src s dest) := by
  by_cases hne : src ≠ dest
  · simp only [mixPair, unmixPair, if_pos hne]
    refine ⟨fun s hs => (unmixDest_undoes _ dest).keeps s hs, fun s hs => ?_⟩
    rw [unmixDest_getElem_ne _ s hne.symm]
    exact (unmixDest_undoes _ dest).undo s hs
  · simp only [mixPair, unmixPair, if_neg hne]
    exact .id

/-! ## A round -/

theorem round_undoes : Undoes OddConst (fun s : Mixing count => mixPairs (hashElems .mixer s))
    (fun s => unhashElems (unmixPairs s)) :=
  (Undoes.foldl hashElem_undoes _).comp
    (Undoes.foldl (fun src => Undoes.foldl (mixPair_undoes src) _) _)

theorem backtrack_undoes : Undoes OddConst (fun s : Mixing count => unhashElems (unmixPairs s))
    (fun s => mixPairs (hashElems .mixer s)) :=
  (Undoes.foldl_reverse (fun src => Undoes.foldl_reverse (unmixPair_undoes src) _) _).comp
    (Undoes.foldl_reverse unhashElem_undoes _)

theorem foldl_hashConst {α : Type} {step : Mixing count → α → Mixing count} {calls : α → Nat}
    (hstep : ∀ s a, (step s a).hashConst = s.hashConst * multA ^ calls a) (l : List α)
    (s : Mixing count) :
    (l.foldl step s).hashConst = s.hashConst * multA ^ (l.map calls).sum := by
  induction l generalizing s with
  | nil => exact (mul_one _).symm
  | cons a l ih =>
    rw [List.foldl_cons, ih, hstep, mul_assoc, ← pow_add, List.map_cons, List.sum_cons]

/-- A step that makes the same number of calls for every element. -/
theorem foldl_finRange_hashConst {step : Mixing count → Fin count → Mixing count} {calls : Nat}
    (hstep : ∀ s k, (step s k).hashConst = s.hashConst * multA ^ calls) (s : Mixing count) :
    ((List.finRange count).foldl step s).hashConst = s.hashConst * multA ^ (count * calls) := by
  have hfold := foldl_hashConst hstep (List.finRange count) s
  rwa [List.map_const', List.length_finRange, List.sum_replicate, smul_eq_mul] at hfold

theorem hashElem_hashConst (words : Words) (s : Mixing count) (k : Fin count) :
    (hashElem words s k).hashConst = s.hashConst * multA ^ 1 := by
  rw [pow_one]
  rfl

theorem mixDest_hashConst (word : Word) (s : Mixing count) (dest : Fin count) :
    (mixDest word s dest).hashConst = s.hashConst * multA ^ 1 := by
  rw [pow_one]
  rfl

theorem hashElems_hashConst (words : Words) (s : Mixing count) :
    (hashElems words s).hashConst = s.hashConst * multA ^ count := by
  rw [hashElems, foldl_finRange_hashConst (hashElem_hashConst words), mul_one]

theorem mixPair_hashConst (src : Fin count) (s : Mixing count) (dest : Fin count) :
    (mixPair src s dest).hashConst = s.hashConst * multA ^ (if src ≠ dest then 1 else 0) := by
  unfold mixPair
  split
  · exact mixDest_hashConst s.mixer[src] s dest
  · rw [pow_zero, mul_one]

/-- Every other element is mixed with. -/
theorem others_sum (src : Fin count) :
    ((List.finRange count).map fun dest => if src ≠ dest then 1 else 0).sum = count - 1 := by
  rw [← Fin.sum_univ_def, Finset.sum_boole, Finset.filter_ne, Nat.cast_id,
    Finset.card_erase_of_mem (Finset.mem_univ src), Finset.card_univ, Fintype.card_fin]

theorem mixPairs_hashConst (s : Mixing count) :
    (mixPairs s).hashConst = s.hashConst * multA ^ (count * (count - 1)) := by
  have hstep : ∀ (s : Mixing count) (src : Fin count),
      ((List.finRange count).foldl (mixPair src) s).hashConst =
        s.hashConst * multA ^ (count - 1) := fun s src => by
    rw [foldl_hashConst (mixPair_hashConst src), others_sum]
  exact foldl_finRange_hashConst hstep s

/-- A round hashes as many words as `count * count`. -/
theorem round_hashConst (words : Words) (s : Mixing count) :
    (mixPairs (hashElems words s)).hashConst = s.hashConst * multA ^ (count * count) := by
  rw [mixPairs_hashConst, hashElems_hashConst, mul_assoc, ← pow_add]
  congr 2
  cases count with
  | zero => rfl
  | succ n =>
    rw [Nat.add_sub_cancel]
    ring

theorem finalConst : initA * fastExp multA (BitVec.ofNat 32 (count * count)) 1 =
    initA * multA ^ (count * count) := by
  rw [fastExp_eq, one_mul, BitVec.toNat_ofNat, odd_pow_mod odd_multA]

theorem stir_eq (mixer : Vector Word count) :
    stir mixer = (mixPairs (hashElems .mixer ⟨initA, mixer⟩)).mixer := rfl

theorem backtrack_stir : Function.LeftInverse backtrack (@stir count) := by
  intro mixer
  have hodd : OddConst (⟨initA, mixer⟩ : Mixing count) := odd_initA
  have hend : (⟨initA * multA ^ (count * count), stir mixer⟩ : Mixing count) =
      mixPairs (hashElems .mixer ⟨initA, mixer⟩) := by
    rw [stir_eq, ← round_hashConst .mixer ⟨initA, mixer⟩]
  dsimp only [backtrack]
  rw [finalConst, hend, round_undoes.undo _ hodd]

theorem stir_backtrack : Function.LeftInverse (@stir count) backtrack := by
  intro mixer
  have hodd : OddConst (⟨initA * multA ^ (count * count), mixer⟩ : Mixing count) :=
    odd_initA.mul odd_multA.pow
  have hundo := backtrack_undoes.undo _ hodd
  -- the round ends with the constant that was backtracked from, so it began with the first
  have hstart := round_hashConst .mixer
    (unhashElems (unmixPairs ⟨initA * multA ^ (count * count), mixer⟩))
  rw [hundo] at hstart
  have hfirst := mul_odd_cancel odd_multA.pow hstart
  dsimp only [backtrack]
  rw [finalConst, stir_eq]
  generalize unhashElems (unmixPairs ⟨initA * multA ^ (count * count), mixer⟩) = s at hundo hfirst
  rw [hfirst, hundo]

/-! ## Seeding -/

/-- The words of a seed, with zeros after the last. -/
def padded (count : Nat) (words : List Word) : Vector Word count :=
  Vector.ofFn fun k => words[(k : Nat)]?.getD 0

theorem padded_getElem (words : List Word) (k : Fin count) :
    (padded count words)[k] = words[(k : Nat)]?.getD 0 :=
  Vector.getElem_ofFn k.isLt

theorem hashElem_seed (words : List Word) (s : Mixing count) (k : Fin count) :
    hashElem (.seed words) s k = ⟨s.hashConst * multA,
      s.mixer.set k (hash s.hashConst (padded count words)[k]).2⟩ := by
  rw [padded_getElem]
  unfold hashElem Words.read
  dsimp only
  cases words[(k : Nat)]? <;> rfl

/-- Two stores that agree on the elements still to be hashed, the one from the seed. -/
theorem hashElems_seed (words : List Word) (l : List (Fin count)) (hnodup : l.Nodup)
    (hashConst : Word) (before mixer : Vector Word count)
    (hahead : ∀ k ∈ l, mixer[k] = (padded count words)[k])
    (hdone : ∀ k ∉ l, mixer[k] = before[k]) :
    l.foldl (hashElem (.seed words)) ⟨hashConst, before⟩ =
      l.foldl (hashElem .mixer) ⟨hashConst, mixer⟩ := by
  induction l generalizing hashConst before mixer with
  | nil =>
    have hsame : mixer = before := Vector.ext fun k hk => hdone ⟨k, hk⟩ List.not_mem_nil
    rw [List.foldl_nil, List.foldl_nil, hsame]
  | cons k l ih =>
    obtain ⟨hnotMem, hnodup⟩ := List.nodup_cons.mp hnodup
    rw [List.foldl_cons, List.foldl_cons, hashElem_seed, hashElem_mixer]
    dsimp only
    rw [hahead k List.mem_cons_self]
    refine ih hnodup _ _ _ (fun j hj => ?_) fun j hj => ?_
    · have hne : k ≠ j := fun heq => hnotMem (heq ▸ hj)
      rw [← hahead j (List.mem_cons_of_mem k hj)]
      exact Vector.getElem_set_ne k.isLt j.isLt (Fin.val_ne_of_ne hne)
    · by_cases hne : k = j
      · subst hne
        exact (Vector.getElem_set_self k.isLt).trans (Vector.getElem_set_self k.isLt).symm
      · have hval := Fin.val_ne_of_ne hne
        have hold := hdone j fun hmem => (List.mem_cons.mp hmem).elim (fun h => hne h.symm) hj
        exact (Vector.getElem_set_ne k.isLt j.isLt hval).trans
          (hold.trans (Vector.getElem_set_ne k.isLt j.isLt hval).symm)

/-- A seed is taken in as a store that holds its words. -/
theorem mixEntropy_seed (mixer : Vector Word count) (words : List Word) :
    mixEntropy mixer (.seed words) =
      ((words.drop count).foldl mixWord
        (mixPairs (hashElems .mixer ⟨initA, padded count words⟩))).mixer := by
  have hsame := hashElems_seed words (List.finRange count) (List.nodup_finRange count) initA mixer
    (padded count words) (fun _ _ => rfl) fun k hk => absurd (List.mem_finRange k) hk
  dsimp only [mixEntropy]
  unfold hashElems
  rw [hsame]
  rfl

theorem mixRounds_pos (count : Nat) : mixRounds count = mixRounds count - 1 + 1 := by
  unfold mixRounds
  omega

theorem seed_short (mixer : Vector Word count) {words : List Word} (hshort : words.length ≤ count) :
    seed mixer words = stir^[mixRounds count] (padded count words) := by
  rw [seed, mixEntropy_seed, List.drop_eq_nil_of_le hshort, List.foldl_nil, mixRounds_pos,
    Function.iterate_succ_apply, stir_eq, Nat.add_sub_cancel]

theorem param_seed (mixer : Vector Word count) {words : List Word}
    (hshort : words.length ≤ count) : param (seed mixer words) = padded count words := by
  rw [seed_short mixer hshort]
  exact backtrack_stir.iterate _ _

theorem padded_toList {words : List Word} (hshort : words.length ≤ count) :
    (padded count words).toList = words ++ List.replicate (count - words.length) 0 := by
  apply List.ext_getElem?
  intro k
  rw [Vector.getElem?_toList, padded, Vector.getElem?_ofFn, List.getElem?_append,
    List.getElem?_replicate]
  by_cases hk : k < words.length
  · rw [dif_pos (by omega), if_pos hk, List.getElem?_eq_getElem hk, Option.getD_some]
  · rw [if_neg hk]
    by_cases hcount : k < count
    · have hbeyond : words.length ≤ k := Nat.le_of_not_lt hk
      rw [dif_pos hcount, if_pos (by omega), List.getElem?_eq_none hbeyond, Option.getD_none]
    · rw [dif_neg hcount, if_neg (by omega)]

theorem padded_vector (words : Vector Word count) : padded count words.toList = words := by
  ext1 k hk
  rw [padded, Vector.getElem_ofFn, Vector.getElem?_toList, Vector.getElem?_eq_getElem hk,
    Option.getD_some]

theorem seed_param (mixer store : Vector Word count) : seed mixer (param store).toList = store := by
  rw [seed_short mixer (Nat.le_of_eq Vector.length_toList), padded_vector]
  exact stir_backtrack.iterate _ _

theorem seed_bijective (mixer : Vector Word count) :
    Function.Bijective fun words : Vector Word count => seed mixer words.toList := by
  constructor
  · intro words words' heq
    have hparam := congrArg param heq
    dsimp only at hparam
    rwa [param_seed mixer (Nat.le_of_eq Vector.length_toList), param_seed mixer (Nat.le_of_eq
      Vector.length_toList), padded_vector, padded_vector] at hparam
  · exact fun store => ⟨param store, seed_param mixer store⟩

/-! ## Longer seeds -/

theorem mixWord_undoes (word : Word) : Undoes OddConst (fun s : Mixing count => mixWord s word)
    (fun s => (List.finRange count).reverse.foldl (unmixDest word) s) :=
  Undoes.foldl (mixDest_undoes word) _

theorem mixWord_hashConst (s : Mixing count) (word : Word) :
    (mixWord s word).hashConst = s.hashConst * multA ^ count := by
  rw [mixWord, foldl_finRange_hashConst (mixDest_hashConst word), mul_one]

/-- With the same words to come, no two stores become one. -/
theorem mixWords_inj (words : List Word) {s s' : Mixing count} (hodd : OddConst s)
    (hconst : s.hashConst = s'.hashConst)
    (heq : (words.foldl mixWord s).mixer = (words.foldl mixWord s').mixer) : s = s' := by
  have hodd' : OddConst s' := by
    unfold OddConst at *
    rwa [← hconst]
  refine (Undoes.foldl mixWord_undoes words).injOn hodd hodd' ?_
  have hend : (words.foldl mixWord s).hashConst = (words.foldl mixWord s').hashConst := by
    rw [foldl_hashConst mixWord_hashConst, foldl_hashConst mixWord_hashConst, hconst]
  generalize words.foldl mixWord s = t, words.foldl mixWord s' = t' at heq hend ⊢
  obtain ⟨hashConst, mixer⟩ := t
  obtain ⟨hashConst', mixer'⟩ := t'
  dsimp only at heq hend
  rw [heq, hend]

theorem foldl_mixDest_getElem (word : Word) {l : List (Fin count)} {k : Fin count} (hk : k ∉ l)
    (s : Mixing count) : (l.foldl (mixDest word) s).mixer[k] = s.mixer[k] := by
  induction l generalizing s with
  | nil => rfl
  | cons dest l ih =>
    have hne : dest ≠ k := fun heq => hk (heq ▸ List.mem_cons_self)
    rw [List.foldl_cons, ih fun hmem => hk (List.mem_cons_of_mem dest hmem),
      mixDest_getElem_ne word s hne]

/-- Another word changes already the first element. -/
theorem mixWord_inj (hcount : 0 < count) {s : Mixing count} (hodd : OddConst s) {word word' : Word}
    (heq : mixWord s word = mixWord s word') : word = word' := by
  cases count with
  | zero => exact absurd hcount (Nat.lt_irrefl 0)
  | succ n =>
    have hnotMem : (0 : Fin (n + 1)) ∉ (List.finRange n).map Fin.succ := by
      intro hmem
      obtain ⟨k, _, hk⟩ := List.mem_map.mp hmem
      exact Fin.succ_ne_zero k hk
    have hfirst : ∀ word, (mixWord s word).mixer[(0 : Fin (n + 1))] =
        mix s.mixer[(0 : Fin (n + 1))] (hash s.hashConst word).2 := by
      intro word
      rw [mixWord, List.finRange_succ, List.foldl_cons]
      exact (foldl_mixDest_getElem word hnotMem _).trans (Vector.getElem_set_self _)
    have hmix : mix s.mixer[(0 : Fin (n + 1))] (hash s.hashConst word).2 =
        mix s.mixer[(0 : Fin (n + 1))] (hash s.hashConst word').2 := by
      rw [← hfirst, heq, hfirst]
    exact hashBy_inj odd_multA hodd (mix_inj_right hmix)

theorem mixWords_set_inj (hcount : 0 < count) {words : List Word} {s : Mixing count}
    (hodd : OddConst s) {k : Nat} {word : Word} (hk : k < words.length)
    (heq : ((words.set k word).foldl mixWord s).mixer = (words.foldl mixWord s).mixer) :
    word = words[k] := by
  induction words generalizing s k with
  | nil => exact absurd hk (Nat.not_lt_zero k)
  | cons first words ih =>
    cases k with
    | zero =>
      refine mixWord_inj hcount hodd
        (mixWords_inj words ((mixWord_undoes word).keeps s hodd) ?_ heq)
      rw [mixWord_hashConst, mixWord_hashConst]
    | succ k =>
      exact ih ((mixWord_undoes first).keeps s hodd) (Nat.lt_of_succ_lt_succ hk) heq

theorem seed_set_inj (hcount : 0 < count) (mixer mixer' : Vector Word count) {words : List Word}
    {k : Nat} {word : Word} (hk : k < words.length)
    (heq : seed mixer (words.set k word) = seed mixer' words) : word = words[k] := by
  have hmix := backtrack_stir.injective.iterate _ heq
  rw [mixEntropy_seed, mixEntropy_seed] at hmix
  have hodd : OddConst (⟨initA, padded count words⟩ : Mixing count) := odd_initA
  have hodd' : OddConst (⟨initA, padded count (words.set k word)⟩ : Mixing count) := odd_initA
  by_cases hfirst : k < count
  · rw [List.drop_set_of_lt hfirst] at hmix
    have hround := mixWords_inj _ (round_undoes.keeps _ hodd')
      (by rw [round_hashConst, round_hashConst]) hmix
    have hpadded := congrArg Mixing.mixer (round_undoes.injOn hodd' hodd hround)
    have hword : (padded count (words.set k word))[(⟨k, hfirst⟩ : Fin count)] =
        (padded count words)[(⟨k, hfirst⟩ : Fin count)] := congrArg (fun v => v[k]) hpadded
    rw [padded_getElem, padded_getElem, List.getElem?_set_self hk, List.getElem?_eq_getElem hk]
      at hword
    exact hword
  · have hsame : padded count (words.set k word) = padded count words := by
      ext1 j hj
      rw [padded, padded, Vector.getElem_ofFn, Vector.getElem_ofFn,
        List.getElem?_set_ne (by dsimp only; omega)]
    rw [hsame, List.drop_set, if_neg hfirst] at hmix
    have hlength : k - count < (words.drop count).length := by
      rw [List.length_drop]
      omega
    have hword := mixWords_set_inj hcount (round_undoes.keeps _ hodd) hlength hmix
    rw [hword, List.getElem_drop]
    congr 1
    omega

/-! ## Generating -/

theorem generateFrom_getElem? (mixer : Vector Word count) {n k : Nat} {src : Fin count}
    (hashConst : Word) (hn : k < n) (hk : src + k < count) :
    (generateFrom mixer n src hashConst)[k]? =
      some (hashBy multB (hashConst * multB ^ k) mixer[src + k]).2 := by
  induction n generalizing k src hashConst with
  | zero => exact absurd hn (Nat.not_lt_zero k)
  | succ n ih =>
    cases k with
    | zero =>
      rw [pow_zero, mul_one]
      rfl
    | succ k =>
      have hnext : (src : Nat) + 1 < count := by omega
      have hahead : (src : Nat) + 1 + k < count := by omega
      have hrest := @ih k ⟨src + 1, hnext⟩ (hashConst * multB) (Nat.lt_of_succ_lt_succ hn) hahead
      rw [generateFrom, dif_pos hnext, List.getElem?_cons_succ, pow_succ', ← mul_assoc]
      refine hrest.trans ?_
      congr 4
      exact Nat.add_right_comm _ 1 k

theorem generate_inj (hcount : 0 < count) {mixer mixer' : Vector Word count} {n : Nat}
    (hn : count ≤ n) (heq : generate hcount mixer n = generate hcount mixer' n) :
    mixer = mixer' := by
  ext1 k hk
  have hword := congrArg (fun l => l[k]?) heq
  dsimp only [generate] at hword
  rw [generateFrom_getElem? mixer initB (by omega) (by dsimp only; omega),
    generateFrom_getElem? mixer' initB (by omega) (by dsimp only; omega)] at hword
  have hvalue := hashBy_inj odd_multB (odd_initB.mul odd_multB.pow) (Option.some.inj hword)
  simpa only [Nat.zero_add] using hvalue

/-- `param` inverts seeding, no seed word is lost, and no two stores generate the same. -/
theorem seedSeq_bijection (hcount : 0 < count) :
    (∀ (mixer : Vector Word count) (words : List Word), words.length ≤ count →
      (param (seed mixer words)).toList = words ++ List.replicate (count - words.length) 0) ∧
    (∀ mixer store : Vector Word count, seed mixer (param store).toList = store) ∧
    (∀ mixer : Vector Word count,
      Function.Bijective fun words : Vector Word count => seed mixer words.toList) ∧
    (∀ (mixer mixer' : Vector Word count) (words : List Word) (k : Nat) (hk : k < words.length)
      (word : Word), word ≠ words[k] → seed mixer (words.set k word) ≠ seed mixer' words) ∧
    (∀ n, count ≤ n → Function.Injective fun store => generate hcount store n) := by
  refine ⟨fun mixer words hshort => ?_, seed_param, seed_bijective, ?_, ?_⟩
  · rw [param_seed mixer hshort, padded_toList hshort]
  · intro mixer mixer' words k hk word hne heq
    exact hne (seed_set_inj hcount mixer mixer' hk heq)
  · intro n hn store store' heq
    exact generate_inj hcount hn heq

theorem seedSeq_bijection_four :
    (∀ (mixer : Vector Word 4) (words : List Word), words.length ≤ 4 →
      (param (seed mixer words)).toList = words ++ List.replicate (4 - words.length) 0) ∧
    (∀ mixer store : Vector Word 4, seed mixer (param store).toList = store) ∧
    (∀ mixer : Vector Word 4,
      Function.Bijective fun words : Vector Word 4 => seed mixer words.toList) ∧
    (∀ (mixer mixer' : Vector Word 4) (words : List Word) (k : Nat) (hk : k < words.length)
      (word : Word), word ≠ words[k] → seed mixer (words.set k word) ≠ seed mixer' words) ∧
    (∀ n, 4 ≤ n → Function.Injective fun store => generate (by decide : 0 < 4) store n) :=
  seedSeq_bijection (by decide)

end SeedSeqFe

end EARanges.Random
