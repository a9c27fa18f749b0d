import EARanges.Support.Visits
import EARanges.Support.Walks
import Mathlib.Data.List.TakeWhile

/-!
# `getlines_view`

view/getlines.hpp. The view reads a line ahead and keeps it in `str_`; the iterator moves the
stream. A line is what `getline` stores up to a delimiter. What follows the last delimiter is
stored too, but the stream has failed by then and the view ends.
-/
namespace EARanges.View
open EARanges.Support

variable {α : Type}

/-- `std::istream`: what can still be extracted from it, `eofbit` and `failbit`. -/
structure IStream (α : Type) where
  rest : List α
  eof : Bool
  failed : Bool

namespace IStream

/-- `sin.get(c)`. -/
def get (sin : IStream α) : Option α × IStream α :=
  if sin.eof || sin.failed then (none, { sin with failed := true })
  else
    match sin.rest with
    | [] => (none, ⟨[], true, true⟩)
    | c :: rest => (some c, { sin with rest := rest })

def good (rest : List α) : IStream α := ⟨rest, false, false⟩

end IStream

structure GetlinesView (α : Type) where
  /-- `sin_` is not null. -/
  attached : Bool
  str : List α

namespace GetlinesView

variable [DecidableEq α] (maxSize : Nat) (delim : α)

/-- The loop of `getline`. -/
def getlineLoop : Nat → IStream α → List α → Exec (IStream α × List α)
  | 0, _, _ => .error .fuel
  | fuel + 1, sin, str =>
    match sin.get with
    | (none, sin) => .ok (sin, str)
    | (some c, sin) =>
      if sin.eof then .ok ({ sin with eof := true }, str)
      else if c = delim then .ok (sin, str)
      else if maxSize ≤ str.length then .ok ({ sin with failed := true }, str)
      else getlineLoop fuel sin (str ++ [c])

def getline (fuel : Nat) (sin : IStream α) : Exec (IStream α × List α) :=
  getlineLoop maxSize delim fuel sin []

/-- `next`. -/
def next (fuel : Nat) (s : GetlinesView α × IStream α) : Exec (GetlinesView α × IStream α) :=
  if s.1.attached then do
    let (sin, str) ← getline maxSize delim fuel s.2
    .ok (⟨!sin.failed, str⟩, sin)
  else .error .fault

/-- `getlines(sin, delim)`. -/
def getlines (fuel : Nat) (sin : IStream α) : Exec (GetlinesView α × IStream α) :=
  next maxSize delim fuel (⟨true, []⟩, sin)

/-- A program that holds an iterator of the view. -/
def client (fuel : Nat) (husk : List α → List α) :
    Responder (GetlinesView α × IStream α) VisitRequest (VisitAnswer (List α))
  | .atEnd, s => .ok (s, .truth (!s.1.attached))
  | .look, s => .ok (s, .element s.1.str)
  | .take, s => .ok ((⟨s.1.attached, husk s.1.str⟩, s.2), .element s.1.str)
  | .next, s => do
    let s ← next maxSize delim fuel s
    .ok (s, .done)

/-- The pieces between delimiters, without the last one, up to the first that is too long. -/
def lines (content : List α) : List (List α) :=
  (content.splitOn delim).dropLast.takeWhile (·.length ≤ maxSize)

variable {maxSize : Nat} {delim : α} {fuel : Nat}

theorem getlineLoop_char {c : α} {rest str : List α} (hc : c ≠ delim)
    (hstr : str.length < maxSize) :
    getlineLoop maxSize delim (fuel + 1) (.good (c :: rest)) str =
      getlineLoop maxSize delim fuel (.good rest) (str ++ [c]) :=
  (if_neg hc).trans (if_neg (Nat.not_le.mpr hstr))

/-- The next piece is stored if it is followed by a delimiter and not too long. -/
theorem getlineLoop_delivers {rest str piece : List α} {pieces : List (List α)}
    (hfuel : rest.length < fuel) (hsplit : rest.splitOn delim = piece :: pieces)
    (hmore : pieces ≠ []) (hshort : str.length + piece.length ≤ maxSize) :
    ∃ rest', getlineLoop maxSize delim fuel (.good rest) str = .ok (.good rest', str ++ piece) ∧
      rest'.splitOn delim = pieces ∧ rest = piece ++ delim :: rest' := by
  induction rest generalizing fuel str piece with
  | nil =>
    rw [List.splitOn_nil] at hsplit
    exact absurd (List.cons.inj hsplit).2.symm hmore
  | cons c rest ih =>
    obtain ⟨fuel, rfl⟩ := Nat.exists_eq_add_one_of_ne_zero (Nat.ne_zero_of_lt hfuel)
    rw [List.splitOn_cons_eq_if_modifyHead] at hsplit
    by_cases hc : c = delim
    · rw [if_pos (beq_iff_eq.mpr hc)] at hsplit
      obtain ⟨rfl, rfl⟩ := List.cons.inj hsplit
      refine ⟨rest, ?_, rfl, by rw [hc, List.nil_append]⟩
      rw [List.append_nil]
      exact if_pos hc
    · rw [if_neg (mt beq_iff_eq.mp hc)] at hsplit
      obtain ⟨tail, more, hrest⟩ := List.exists_cons_of_ne_nil (List.splitOn_ne_nil delim rest)
      rw [hrest, List.modifyHead_cons] at hsplit
      obtain ⟨rfl, rfl⟩ := List.cons.inj hsplit
      rw [List.length_cons] at hshort
      have hshort' : (str ++ [c]).length + tail.length ≤ maxSize := by
        rw [List.length_append, List.length_singleton]
        omega
      obtain ⟨rest', hloop, hpieces, rfl⟩ := ih (Nat.lt_of_succ_lt_succ hfuel) hrest hshort'
      refine ⟨rest', ?_, hpieces, rfl⟩
      rw [getlineLoop_char hc (by omega), hloop, List.append_assoc]
      rfl

/-- Otherwise the stream fails. -/
theorem getlineLoop_fails {rest str piece : List α} {pieces : List (List α)}
    (hfuel : rest.length < fuel) (hsplit : rest.splitOn delim = piece :: pieces)
    (hends : pieces = [] ∨ maxSize < str.length + piece.length) (hstr : str.length ≤ maxSize) :
    ∃ sin out, getlineLoop maxSize delim fuel (.good rest) str = .ok (sin, out) ∧
      sin.failed = true := by
  induction rest generalizing fuel str piece with
  | nil =>
    obtain ⟨fuel, rfl⟩ := Nat.exists_eq_add_one_of_ne_zero (Nat.ne_zero_of_lt hfuel)
    exact ⟨⟨[], true, true⟩, str, rfl, rfl⟩
  | cons c rest ih =>
    obtain ⟨fuel, rfl⟩ := Nat.exists_eq_add_one_of_ne_zero (Nat.ne_zero_of_lt hfuel)
    rw [List.splitOn_cons_eq_if_modifyHead] at hsplit
    by_cases hc : c = delim
    · rw [if_pos (beq_iff_eq.mpr hc)] at hsplit
      obtain ⟨rfl, rfl⟩ := List.cons.inj hsplit
      refine absurd (hends.resolve_left (List.splitOn_ne_nil delim rest)) ?_
      rw [List.length_nil, Nat.add_zero]
      exact Nat.not_lt.mpr hstr
    · rw [if_neg (mt beq_iff_eq.mp hc)] at hsplit
      obtain ⟨tail, more, hrest⟩ := List.exists_cons_of_ne_nil (List.splitOn_ne_nil delim rest)
      rw [hrest, List.modifyHead_cons] at hsplit
      obtain ⟨rfl, rfl⟩ := List.cons.inj hsplit
      rw [List.length_cons] at hends
      obtain hlong | hroom := Nat.lt_or_ge str.length maxSize |>.symm
      · exact ⟨_, str, (if_neg hc).trans (if_pos hlong), rfl⟩
      · have hlength : (str ++ [c]).length = str.length + 1 := by
          rw [List.length_append, List.length_singleton]
        rw [getlineLoop_char hc hroom]
        refine ih (Nat.lt_of_succ_lt_succ hfuel) hrest (hends.imp_right fun hlong => ?_) ?_
        · omega
        · omega

theorem lines_cons {content rest : List α} {piece : List α}
    (hsplit : content.splitOn delim = piece :: rest.splitOn delim) :
    lines maxSize delim content =
      if piece.length ≤ maxSize then piece :: lines maxSize delim rest else [] := by
  rw [lines, hsplit, List.dropLast_cons_of_ne_nil (List.splitOn_ne_nil delim rest),
    List.takeWhile_cons]
  simp only [decide_eq_true_eq, lines]

/-- One line ahead: it has been delivered, or there is no further one. -/
theorem getline_spec {rest : List α} (hfuel : rest.length < fuel) :
    (∃ line rest', getline maxSize delim fuel (.good rest) = .ok (.good rest', line) ∧
      lines maxSize delim rest = line :: lines maxSize delim rest' ∧
      rest = line ++ delim :: rest') ∨
    (∃ sin line, getline maxSize delim fuel (.good rest) = .ok (sin, line) ∧
      sin.failed = true ∧ lines maxSize delim rest = []) := by
  obtain ⟨piece, pieces, hsplit⟩ := List.exists_cons_of_ne_nil (List.splitOn_ne_nil delim rest)
  have hstart : ([] : List α).length ≤ maxSize := Nat.zero_le _
  by_cases hmore : pieces = []
  · obtain ⟨sin, line, hline, hfailed⟩ := getlineLoop_fails hfuel hsplit (.inl hmore) hstart
    refine .inr ⟨sin, line, hline, hfailed, ?_⟩
    rw [lines, hsplit, hmore]
    rfl
  by_cases hshort : piece.length ≤ maxSize
  · have hshort' : ([] : List α).length + piece.length ≤ maxSize := by
      rwa [List.length_nil, Nat.zero_add]
    obtain ⟨rest', hline, hpieces, hrest⟩ := getlineLoop_delivers hfuel hsplit hmore hshort'
    refine .inl ⟨piece, rest', hline, ?_, hrest⟩
    rw [← hpieces] at hsplit
    rw [lines_cons hsplit, if_pos hshort]
  · obtain ⟨sin, line, hline, hfailed⟩ := getlineLoop_fails hfuel hsplit
      (.inr (by rw [List.length_nil]; omega)) hstart
    refine .inr ⟨sin, line, hline, hfailed, ?_⟩
    rw [lines, hsplit, List.dropLast_cons_of_ne_nil hmore, List.takeWhile_cons_of_neg]
    rwa [decide_eq_true_eq]

/-- Where the view and the stream stand when `position` lines have been passed. -/
inductive Standing (maxSize : Nat) (delim : α) (content : List α) (husk : List α → List α) :
    GetlinesView α × IStream α → Visit → Prop where
  | onLine {v : Visit} {line str rest : List α} :
      (lines maxSize delim content).drop v.position = line :: lines maxSize delim rest →
      content =
        ((lines maxSize delim content).take (v.position + 1)).flatMap (· ++ [delim]) ++ rest →
      str = v.shown husk line → Standing maxSize delim content husk (⟨true, str⟩, .good rest) v
  | ended {v : Visit} {str : List α} {sin : IStream α} :
      (lines maxSize delim content).drop v.position = [] →
      Standing maxSize delim content husk (⟨false, str⟩, sin) v

section
variable {content : List α} {husk : List α → List α}

/-- `next`, from a line or before the first one, with `rest` still in the stream. -/
theorem next_standing {rest str : List α} {k : Nat} (hfuel : rest.length < fuel)
    (hdrop : (lines maxSize delim content).drop k = lines maxSize delim rest)
    (hcontent : content = ((lines maxSize delim content).take k).flatMap (· ++ [delim]) ++ rest) :
    ∃ s, next maxSize delim fuel (⟨true, str⟩, .good rest) = .ok s ∧
      Standing maxSize delim content husk s ⟨k, false, 0⟩ := by
  obtain ⟨line, rest', hline, hlines, hrest⟩ | ⟨sin, line, hline, hfailed, hlines⟩ :=
    @getline_spec α _ maxSize delim fuel rest hfuel
  · rw [hlines] at hdrop
    refine ⟨(⟨true, line⟩, .good rest'), ?_, .onLine hdrop ?_ rfl⟩
    · rw [next, if_pos rfl, hline, exec_bind_ok]
      rfl
    · obtain ⟨_, hk, _⟩ := of_drop_eq_cons hdrop
      rw [List.take_add_one, hk, List.flatMap_append, List.append_assoc]
      refine hcontent.trans (congrArg _ ?_)
      rw [hrest, Option.toList_some, List.flatMap_singleton, List.append_assoc]
      rfl
  · refine ⟨(⟨!sin.failed, line⟩, sin), ?_, ?_⟩
    · rw [next, if_pos rfl, hline, exec_bind_ok]
    · rw [hfailed]
      exact .ended (hdrop.trans hlines)

theorem getlines_standing (hfuel : content.length < fuel) :
    ∃ s, getlines maxSize delim fuel (.good content) = .ok s ∧
      Standing maxSize delim content husk s .start := next_standing hfuel rfl rfl

/-- A request to an iterator that stands on a line. -/
theorem client_standing {s : GetlinesView α × IStream α} {v : Visit} {line : List α}
    (op : VisitRequest) (hfuel : content.length < fuel)
    (h : Standing maxSize delim content husk s v)
    (hline : (lines maxSize delim content)[v.position]? = some line) :
    ∃ s', client maxSize delim fuel husk op s = .ok (s', (visitElement husk v line op).2) ∧
      Standing maxSize delim content husk s' (visitElement husk v line op).1 := by
  cases h with
  | ended hend =>
    rw [← List.head?_drop, hend] at hline
    cases hline
  | @onLine v line' str rest hdrop hcontent hstr =>
    obtain ⟨_, hhere, hnext⟩ := of_drop_eq_cons hdrop
    obtain rfl := Option.some.inj (hhere.symm.trans hline)
    cases op with
    | atEnd => exact ⟨_, rfl, .onLine hdrop hcontent hstr⟩
    | look => exact ⟨_, by rw [hstr]; rfl, .onLine hdrop hcontent rfl⟩
    | take =>
      refine ⟨_, by rw [hstr]; rfl, .onLine hdrop hcontent ?_⟩
      exact (Function.iterate_succ_apply' husk v.taken line').symm
    | next =>
      have hrest : rest.length ≤ content.length := by
        rw [hcontent, List.length_append]
        exact Nat.le_add_left _ _
      obtain ⟨s', hrun, hstanding⟩ := next_standing (Nat.lt_of_le_of_lt hrest hfuel) hnext hcontent
      refine ⟨s', ?_, hstanding⟩
      rw [client, hrun, exec_bind_ok]
      rfl

/-- However the lines are read, they are the pieces of the text that a delimiter ends, and up to the
end the stream has been read as far as the line the iterator stands on. -/
theorem getlines_delivers (hfuel : content.length < fuel) {ops : List VisitRequest} {v : Visit}
    {rs : List (VisitAnswer (List α))}
    (hrun : Responder.run (visits (fun i => (lines maxSize delim content)[i]?) husk) ops .start =
      .ok (v, rs)) :
    ∃ s s', getlines maxSize delim fuel (.good content) = .ok s ∧
      Responder.run (client maxSize delim fuel husk) ops s = .ok (s', rs) ∧
      (v.position < (lines maxSize delim content).length →
        content = ((lines maxSize delim content).take (v.position + 1)).flatMap (· ++ [delim]) ++
          s'.2.rest) := by
  have hend : ∀ s v, Standing maxSize delim content husk s v →
      (lines maxSize delim content)[v.position]? = none →
      ∃ s', client maxSize delim fuel husk .atEnd s = .ok (s', .truth true) ∧
        Standing maxSize delim content husk s' v := by
    intro s v h hnone
    cases h with
    | onLine hdrop _ _ =>
      rw [(of_drop_eq_cons hdrop).2.1] at hnone
      cases hnone
    | ended hend => exact ⟨_, rfl, .ended hend⟩
  obtain ⟨s, hstart, hs⟩ := @getlines_standing α _ maxSize delim fuel content husk hfuel
  obtain ⟨s', hops, hs'⟩ :=
    visits_refines hend (fun s v x op h hx => client_standing op hfuel h hx) hs hrun
  refine ⟨s, s', hstart, hops, fun hlt => ?_⟩
  cases hs' with
  | onLine _ hcontent _ => exact hcontent
  | ended hend => exact absurd hlt (Nat.not_lt.mpr (List.drop_eq_nil_iff.mp hend))

/-- Five characters; the iterator has gone on to the empty line. -/
theorem getlines_delivers_text :
    ∃ s s', getlines 80 '\n' 6 (.good ['a', '\n', '\n', 'b', 'c']) = .ok s ∧
      Responder.run (client 80 '\n' 6 fun _ => []) [.atEnd, .take, .look, .next, .look] s =
        .ok (s', [.truth false, .element ['a'], .element [], .done, .element []]) ∧
      s'.2.rest = ['b', 'c'] := by
  obtain ⟨s, s', hstart, hops, hrest⟩ := getlines_delivers (v := ⟨1, true, 0⟩)
    (by decide : ['a', '\n', '\n', 'b', 'c'].length < 6)
    (rfl : Responder.run (visits (fun i => (lines 80 '\n' ['a', '\n', '\n', 'b', 'c'])[i]?)
      fun _ => []) [.atEnd, .take, .look, .next, .look] .start = .ok (⟨1, true, 0⟩, _))
  have htext : ['a', '\n', '\n'] ++ ['b', 'c'] = ['a', '\n', '\n'] ++ s'.2.rest :=
    hrest (by decide)
  exact ⟨s, s', hstart, hops, (List.append_cancel_left htext).symm⟩

/-- `for(auto & line : rng) out << line << delim;`. -/
def copyOut (maxSize : Nat) (delim : α) (fuel : Nat) :
    Nat → GetlinesView α × IStream α → List α → Exec (List α)
  | 0, _, _ => .error .fuel
  | turns + 1, s, out =>
    if s.1.attached then do
      let s' ← next maxSize delim fuel s
      copyOut maxSize delim fuel turns s' (out ++ (s.1.str ++ [delim]))
    else .ok out

theorem copyOut_standing {turns k : Nat} {s : GetlinesView α × IStream α} {out : List α}
    (hfuel : content.length < fuel) (h : Standing maxSize delim content husk s ⟨k, false, 0⟩)
    (hturns : (lines maxSize delim content).length - k < turns) :
    copyOut maxSize delim fuel turns s out =
      .ok (out ++ ((lines maxSize delim content).drop k).flatMap (· ++ [delim])) := by
  induction turns generalizing s k out with
  | zero => exact absurd hturns (Nat.not_lt_zero _)
  | succ turns ih =>
    cases h with
    | ended hend =>
      rw [hend, List.flatMap_nil, List.append_nil]
      rfl
    | @onLine _ line str rest hdrop hcontent hstr =>
      obtain ⟨hlt, hhere, hnext⟩ := of_drop_eq_cons hdrop
      obtain ⟨s', hrun, hstanding⟩ := client_standing .next hfuel
        (.onLine hdrop hcontent hstr) hhere
      obtain ⟨s'', hnextRun, hpair⟩ := exec_bind_eq_ok.mp hrun
      obtain ⟨rfl, _⟩ := Prod.mk.inj (Except.ok.inj hpair)
      have hfewer : (lines maxSize delim content).length - (k + 1) < turns := by
        change k < (lines maxSize delim content).length at hlt
        omega
      have hrest := @ih (k + 1) s'' (out ++ (str ++ [delim])) hstanding hfewer
      rw [copyOut, if_pos rfl, hnextRun, exec_bind_ok, hrest, hdrop, hnext, hstr,
        List.flatMap_cons, List.append_assoc]
      rfl

omit [DecidableEq α] in
theorem intercalate_concat (delim : α) (pieces : List (List α)) (last : List α) :
    [delim].intercalate (pieces ++ [last]) = pieces.flatMap (· ++ [delim]) ++ last := by
  induction pieces with
  | nil => exact List.append_nil last
  | cons piece pieces ih =>
    obtain ⟨next, more, hmore⟩ := List.exists_cons_of_ne_nil
      (List.append_ne_nil_of_right_ne_nil pieces (List.cons_ne_nil last []))
    rw [List.flatMap_cons, List.append_assoc, ← ih, List.cons_append, hmore, List.append_assoc]
    rfl

theorem splitOn_concat (delim : α) (content : List α) :
    (content ++ [delim]).splitOn delim = content.splitOn delim ++ [[]] := by
  rw [List.splitOn_append_cons_self, List.splitOn_nil]

/-- The text ends with a delimiter when nothing stands behind the last one. -/
theorem last_piece_nil_iff {pieces : List (List α)} {last : List α}
    (hsplit : content.splitOn delim = pieces ++ [last]) :
    last = [] ↔ content = [] ∨ content.getLast? = some delim := by
  have hcontent : content = pieces.flatMap (· ++ [delim]) ++ last := by
    rw [← intercalate_concat, ← hsplit, List.intercalate_splitOn]
  constructor
  · rintro rfl
    rw [List.append_nil] at hcontent
    obtain rfl | ⟨pieces, piece, rfl⟩ := List.eq_nil_or_concat' pieces
    · exact .inl hcontent
    · right
      rw [hcontent, List.flatMap_append, List.flatMap_singleton, ← List.append_assoc,
        List.getLast?_concat]
  · rintro (rfl | hlast)
    · rw [List.splitOn_nil, ← List.nil_append [[]]] at hsplit
      exact (List.cons.inj (List.append_inj' hsplit rfl).2).1.symm
    · obtain ⟨text, rfl⟩ := List.getLast?_eq_some_iff.mp hlast
      rw [splitOn_concat] at hsplit
      exact (List.cons.inj (List.append_inj' hsplit rfl).2).1.symm

/-- What is lost of the text is what stands behind the last delimiter, and everything from the first
line that is too long on. -/
theorem lines_flatMap (maxSize : Nat) (delim : α) (content : List α) :
    ∃ lost, content = (lines maxSize delim content).flatMap (· ++ [delim]) ++ lost ∧
      (lost = [] ↔ (content = [] ∨ content.getLast? = some delim) ∧
        ∀ piece ∈ content.splitOn delim, piece.length ≤ maxSize) := by
  obtain ⟨pieces, last, hsplit⟩ :=
    (List.eq_nil_or_concat' (content.splitOn delim)).resolve_left (List.splitOn_ne_nil _ _)
  have hcontent : content = pieces.flatMap (· ++ [delim]) ++ last := by
    rw [← intercalate_concat, ← hsplit, List.intercalate_splitOn]
  have hlines : lines maxSize delim content = pieces.takeWhile (·.length ≤ maxSize) := by
    rw [lines, hsplit, List.dropLast_concat]
  refine ⟨(pieces.dropWhile (·.length ≤ maxSize)).flatMap (· ++ [delim]) ++ last, ?_, ?_⟩
  · rw [hlines, ← List.append_assoc, ← List.flatMap_append, List.takeWhile_append_dropWhile]
    exact hcontent
  · rw [List.append_eq_nil_iff, last_piece_nil_iff hsplit, and_comm, hsplit]
    refine and_congr_right fun hends => ?_
    obtain rfl := (last_piece_nil_iff hsplit).mpr hends
    have hlost : (pieces.dropWhile (·.length ≤ maxSize)).flatMap (· ++ [delim]) = [] ↔
        pieces.dropWhile (·.length ≤ maxSize) = [] := by
      refine ⟨fun h => List.eq_nil_iff_forall_not_mem.mpr fun piece hpiece => ?_, fun h => by
        rw [h, List.flatMap_nil]⟩
      exact absurd (List.flatMap_eq_nil_iff.mp h piece hpiece) 
        (List.append_ne_nil_of_right_ne_nil piece (List.cons_ne_nil delim []))
    rw [hlost, List.dropWhile_eq_nil_iff, List.forall_mem_append, List.forall_mem_singleton]
    simp only [decide_eq_true_eq, List.length_nil, Nat.zero_le, and_true]

omit [DecidableEq α] in
theorem length_le_flatMap (delim : α) (ls : List (List α)) :
    ls.length ≤ (ls.flatMap (· ++ [delim])).length := by
  induction ls with
  | nil => exact Nat.le_refl 0
  | cons line ls ih =>
    rw [List.flatMap_cons, List.length_append, List.length_append, List.length_cons,
      List.length_singleton]
    omega

/-- Reading all lines and writing each with its delimiter gives the text back if and only if it
ends with a delimiter, or is empty, and has no line that is too long. -/
theorem getlines_round_trip (maxSize : Nat) (delim : α) (hfuel : content.length < fuel) :
    ∃ text, (do
        let s ← getlines maxSize delim fuel (.good content)
        copyOut maxSize delim fuel fuel s []) = .ok text ∧ text <+: content ∧
      (text = content ↔ (content = [] ∨ content.getLast? = some delim) ∧
        ∀ piece ∈ content.splitOn delim, piece.length ≤ maxSize) := by
  obtain ⟨lost, hcontent, hlost⟩ := lines_flatMap maxSize delim content
  obtain ⟨s, hstart, hs⟩ := @getlines_standing α _ maxSize delim fuel content id hfuel
  have hlines : (lines maxSize delim content).length ≤ content.length := by
    conv_rhs => rw [hcontent]
    rw [List.length_append]
    exact (length_le_flatMap delim _).trans (Nat.le_add_right _ _)
  have hcopy := @copyOut_standing α _ maxSize delim fuel content id fuel 0 s [] hfuel hs
    (Nat.lt_of_le_of_lt hlines hfuel)
  rw [List.drop_zero, List.nil_append] at hcopy
  refine ⟨_, ?_, ⟨lost, hcontent.symm⟩, ?_⟩
  · rw [hstart, exec_bind_ok, hcopy]
  · rw [← hlost]
    constructor
    · intro htext
      rw [htext] at hcontent
      exact List.self_eq_append_right.mp hcontent
    · intro h
      rw [h, List.append_nil] at hcontent
      exact hcontent.symm

theorem getlines_round_trip_text :
    ∃ text, (do
        let s ← getlines 80 '\n' 5 (.good ['a', '\n', 'b', 'c'])
        copyOut 80 '\n' 5 5 s []) = .ok text ∧ text ≠ ['a', '\n', 'b', 'c'] := by
  obtain ⟨text, hcopy, _, hsame⟩ :=
    getlines_round_trip 80 '\n' (by decide : ['a', '\n', 'b', 'c'].length < 5)
  refine ⟨text, hcopy, fun h => ?_⟩
  obtain ⟨hempty | hlast, _⟩ := hsame.mp h
  · cases hempty
  · exact absurd hlast (by decide)

end

end GetlinesView

end EARanges.View
