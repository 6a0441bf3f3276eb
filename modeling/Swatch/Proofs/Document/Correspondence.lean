import Mathlib.Data.List.Induction
import Mathlib.Order.Basic
import Swatch.Document.Indexed
import Swatch.Proofs.Document.Lines

/-!
Offsets in a text and positions by line and character are the same places, counted in two ways. A position
is what one comes to by walking through the text up to the offset: a line break leads to the start of the
next line, every other character one place on.

Main statement: the two countings correspond in order, and a document answers with them for the text that
it has, whatever was asked and edited before.
-/

namespace Swatch

namespace Position

instance : Preorder Position where
  le p q := p.line < q.line ∨ p.line = q.line ∧ p.character ≤ q.character
  lt p q := p.line < q.line ∨ p.line = q.line ∧ p.character < q.character
  le_refl p := .inr ⟨rfl, Int.le_refl _⟩
  le_trans p q r hpq hqr := by omega
  lt_iff_le_not_ge p q := by omega

variable {p q : Position} {piece : List Char}

theorem lt_iff : p < q ↔ p.line < q.line ∨ p.line = q.line ∧ p.character < q.character :=
  Iff.rfl

theorem isUpTo_iff : p.isUpTo q = true ↔ p ≤ q := by
  simp only [isUpTo, Bool.or_eq_true, Bool.and_eq_true, decide_eq_true_eq, beq_iff_eq]
  exact Iff.rfl

/-! ### Walking through a text -/

/-- The position behind a character that stands at a position. -/
def next (p : Position) (c : Char) : Position :=
  if c = '\n' then ⟨p.line + 1, 0⟩ else ⟨p.line, p.character + 1⟩

/-- The position behind a piece of text that begins at a position. -/
def behind (p : Position) (piece : List Char) : Position :=
  piece.foldl next p

@[simp] theorem behind_nil (p : Position) : p.behind [] = p :=
  rfl

@[simp] theorem behind_cons (p : Position) (c : Char) (piece : List Char) :
    p.behind (c :: piece) = (p.next c).behind piece :=
  rfl

theorem behind_append (p : Position) (front back : List Char) :
    p.behind (front ++ back) = (p.behind front).behind back :=
  List.foldl_append

theorem lt_next (p : Position) (c : Char) : p < p.next c := by
  rw [lt_iff, next]
  split
  · exact .inl (Int.lt_succ p.line)
  · exact .inr ⟨rfl, Int.lt_succ p.character⟩

theorem le_behind (p : Position) (piece : List Char) : p ≤ p.behind piece := by
  induction piece generalizing p with
  | nil => exact le_refl p
  | cons c piece ih => exact (lt_next p c).le.trans (ih (p.next c))

theorem lt_behind (hne : piece ≠ []) : p < p.behind piece := by
  cases piece with
  | nil => exact absurd rfl hne
  | cons c piece => exact (lt_next p c).trans_le (le_behind (p.next c) piece)

theorem behind_of_notMem (hpiece : '\n' ∉ piece) :
    p.behind piece = ⟨p.line, p.character + piece.length⟩ := by
  induction piece generalizing p with
  | nil => simp
  | cons c piece ih =>
    rw [List.mem_cons, not_or] at hpiece
    rw [behind_cons, ih hpiece.2, next, if_neg (Ne.symm hpiece.1), List.length_cons, Int.natCast_succ,
      Int.add_assoc, Int.add_comm 1]

theorem behind_newline (hpiece : '\n' ∉ piece) (back : List Char) :
    p.behind (piece ++ '\n' :: back) = (⟨p.line + 1, 0⟩ : Position).behind back := by
  rw [behind_append, behind_of_notMem hpiece, behind_cons, next, if_pos rfl]

end Position

namespace LineIndex

open Position

variable {cs front back line : List Char} {k : Nat}

/-! ### Where lines start -/

theorem startsAfterNewlines_append (offset : Nat) (front back : List Char) :
    startsAfterNewlines offset (front ++ back) =
      startsAfterNewlines offset front ++ startsAfterNewlines (offset + front.length) back := by
  induction front generalizing offset with
  | nil => rfl
  | cons c front ih =>
    have hoffset : offset + (c :: front).length = offset + 1 + front.length := by
      rw [List.length_cons]
      omega
    rw [List.cons_append, startsAfterNewlines, startsAfterNewlines, ih, hoffset]
    split <;> rfl

theorem bounds_of_mem_startsAfterNewlines {offset start : Nat}
    (hmem : start ∈ startsAfterNewlines offset cs) : offset < start ∧ start ≤ offset + cs.length := by
  induction cs generalizing offset with
  | nil => cases hmem
  | cons c cs ih =>
    have hrest (h : start ∈ startsAfterNewlines (offset + 1) cs) :
        offset < start ∧ start ≤ offset + (c :: cs).length := by
      have hbounds := ih h
      rw [List.length_cons]
      omega
    rw [startsAfterNewlines] at hmem
    split at hmem
    · rcases List.mem_cons.mp hmem with rfl | hmem
      · rw [List.length_cons]
        omega
      · exact hrest hmem
    · exact hrest hmem

/-- The lines that start up to an offset are those that start in the text before it. -/
theorem takeWhile_starts (front back : List Char) :
    (ofChars (front ++ back)).starts.takeWhile (· ≤ front.length) = 0 :: startsAfterNewlines 0 front := by
  have hfront : ∀ start ∈ 0 :: startsAfterNewlines 0 front, decide (start ≤ front.length) = true := by
    intro start hmem
    rcases List.mem_cons.mp hmem with rfl | hmem
    · exact decide_eq_true (Nat.zero_le _)
    · have hbounds := bounds_of_mem_startsAfterNewlines hmem
      exact decide_eq_true (by omega)
  have hback : (startsAfterNewlines (0 + front.length) back).takeWhile (· ≤ front.length) = [] := by
    cases hstarts : startsAfterNewlines (0 + front.length) back with
    | nil => rfl
    | cons start rest =>
      have hbounds := bounds_of_mem_startsAfterNewlines (hstarts ▸ List.mem_cons_self)
      exact List.takeWhile_cons_of_neg (by simp only [decide_eq_true_eq]; omega)
  rw [ofChars, startsAfterNewlines_append, ← List.cons_append, List.takeWhile_append_of_pos hfront, hback,
    List.append_nil]

theorem behind_eq_starts (front : List Char) : (⟨0, 0⟩ : Position).behind front =
    ⟨(startsAfterNewlines 0 front).length,
      front.length - (0 :: startsAfterNewlines 0 front).getLastD 0⟩ := by
  induction front using List.reverseRecOn with
  | nil => rfl
  | append_singleton front c ih =>
    rw [behind_append, ih, behind_cons, behind_nil, next, startsAfterNewlines_append, startsAfterNewlines,
      startsAfterNewlines]
    by_cases hc : c = '\n'
    · rw [if_pos hc, hc, beq_self_eq_true, if_pos rfl, ← List.cons_append, List.getLastD_concat]
      simp
    · simp [hc]
      omega

/-- A position is what one comes to on the way to the offset; beyond the ends of the text there is no way. -/
theorem positionAt_eq_behind (cs : List Char) (offset : Int) :
    (ofChars cs).positionAt offset = (⟨0, 0⟩ : Position).behind (cs.take offset.toNat) := by
  have hwhole : cs.take offset.toNat ++ cs.drop offset.toNat = cs := List.take_append_drop _ _
  have hlength : min offset.toNat (ofChars cs).length = (cs.take offset.toNat).length := by
    rw [List.length_take, ofChars]
  have hstarts := takeWhile_starts (cs.take offset.toNat) (cs.drop offset.toNat)
  rw [hwhole] at hstarts
  rw [positionAt, behind_eq_starts]
  simp only [hlength, hstarts, List.length_cons]
  congr 1
  omega

/-! ### Lines -/

theorem length_splitOn (cs : List Char) (offset : Nat) :
    (cs.splitOn '\n').length = (startsAfterNewlines offset cs).length + 1 := by
  induction cs generalizing offset with
  | nil => rfl
  | cons c cs ih =>
    rw [List.splitOn_cons_eq_if_modifyHead, startsAfterNewlines]
    split
    · rw [List.length_cons, List.length_cons, ih (offset + 1)]
    · rw [List.length_modifyHead, ih (offset + 1)]

/-- A line stands in the text behind as many line breaks as its number says. -/
theorem exists_line (hline : (cs.splitOn '\n')[k]? = some line) :
    ∃ front back, cs = front ++ (line ++ back) ∧ '\n' ∉ line ∧
      ∀ first, (⟨first, 0⟩ : Position).behind front = ⟨first + k, 0⟩ := by
  have hbegin (first : Int) : (⟨first, 0⟩ : Position).behind [] = ⟨first + (0 : Nat), 0⟩ := by
    rw [behind_nil, Int.natCast_zero, Int.add_zero]
  induction k generalizing cs with
  | zero =>
    by_cases hmem : '\n' ∈ cs
    · obtain ⟨top, rest, rfl, htop⟩ := List.eq_append_cons_of_mem hmem
      rw [List.splitOn_append_cons_self_of_not_mem htop] at hline
      obtain rfl : top = line := Option.some.inj hline
      exact ⟨[], '\n' :: rest, rfl, htop, hbegin⟩
    · rw [List.splitOn_eq_singleton hmem] at hline
      obtain rfl : cs = line := Option.some.inj hline
      exact ⟨[], [], (List.append_nil cs).symm, hmem, hbegin⟩
  | succ k ih =>
    by_cases hmem : '\n' ∈ cs
    · obtain ⟨top, rest, rfl, htop⟩ := List.eq_append_cons_of_mem hmem
      rw [List.splitOn_append_cons_self_of_not_mem htop, List.getElem?_cons_succ] at hline
      obtain ⟨front, back, rfl, hnone, hfront⟩ := ih hline
      refine ⟨top ++ '\n' :: front, back, by simp, hnone, fun first => ?_⟩
      rw [behind_newline htop, hfront, Int.natCast_succ, Int.add_assoc, Int.add_comm 1]
    · rw [List.splitOn_eq_singleton hmem] at hline
      cases hline

/-- A position on a line is the position of an offset. -/
theorem exists_positionAt (hline : (cs.splitOn '\n')[k]? = some line) {place : Nat}
    (hplace : place ≤ line.length) :
    ∃ offset : Nat, offset ≤ cs.length ∧ (ofChars cs).positionAt offset = ⟨k, place⟩ := by
  obtain ⟨front, back, rfl, hnone, hfront⟩ := exists_line hline
  refine ⟨front.length + place, by simp; omega, ?_⟩
  have htake : (front ++ (line ++ back)).take (front.length + place) = front ++ line.take place := by
    rw [List.take_length_add_append, List.take_append_of_le_length hplace]
  rw [positionAt_eq_behind, Int.toNat_natCast, htake, behind_append, hfront,
    behind_of_notMem fun hmem => hnone (List.mem_of_mem_take hmem), List.length_take,
    Nat.min_eq_left hplace, Int.zero_add, Int.zero_add]

/-! ### The two countings -/

/-- Offsets in a text and positions correspond, each the other way round and in order. -/
structure Corresponds (cs : List Char) : Prop where
  offsetAt_position : ∀ offset : Int, 0 ≤ offset → offset ≤ cs.length →
    (ofChars cs).offsetAt ((ofChars cs).positionAt offset) = offset
  positionAt_lt : ∀ offset offset' : Int, 0 ≤ offset → offset < offset' → offset' ≤ cs.length →
    (ofChars cs).positionAt offset < (ofChars cs).positionAt offset'
  positionAt_offset : ∀ (k : Nat) (line : List Char), (cs.splitOn '\n')[k]? = some line →
    ∀ place : Nat, place ≤ line.length →
      (ofChars cs).positionAt ((ofChars cs).offsetAt ⟨k, place⟩) = ⟨k, place⟩
  positionAt_below : ∀ offset < 0, (ofChars cs).positionAt offset = (ofChars cs).positionAt 0
  positionAt_beyond : ∀ offset > (cs.length : Int),
    (ofChars cs).positionAt offset = (ofChars cs).positionAt cs.length
  offsetAt_beyond : ∀ p : Position, (cs.splitOn '\n').length ≤ p.line →
    (ofChars cs).offsetAt p = cs.length
  contains_iff : ∀ start stop offset : Int, 0 ≤ start → start ≤ stop → stop ≤ cs.length →
    0 ≤ offset → offset ≤ cs.length →
      (((ofChars cs).range start stop).contains ((ofChars cs).positionAt offset) = true ↔
        start ≤ offset ∧ offset ≤ stop)

section Order

variable {offset offset' : Int}

theorem positionAt_lt_positionAt (hle : 0 ≤ offset) (hlt : offset < offset') (hlength : offset' ≤ cs.length) :
    (ofChars cs).positionAt offset < (ofChars cs).positionAt offset' := by
  rw [positionAt_eq_behind, positionAt_eq_behind]
  have hsplit : cs.take offset'.toNat =
      cs.take offset.toNat ++ (cs.drop offset.toNat).take (offset'.toNat - offset.toNat) := by
    rw [← List.take_add]
    congr 1
    omega
  rw [hsplit, behind_append]
  refine lt_behind fun hnil => ?_
  rw [List.take_eq_nil_iff, List.drop_eq_nil_iff] at hnil
  omega

theorem positionAt_le_iff (hle : 0 ≤ offset) (hlength : offset ≤ cs.length) (hle' : 0 ≤ offset')
    (hlength' : offset' ≤ cs.length) :
    (ofChars cs).positionAt offset ≤ (ofChars cs).positionAt offset' ↔ offset ≤ offset' := by
  constructor
  · intro hpositions
    by_contra hlt
    exact (positionAt_lt_positionAt hle' (Int.lt_of_not_ge hlt) hlength).not_ge hpositions
  · intro hoffsets
    rcases Int.lt_or_eq_of_le hoffsets with hlt | rfl
    · exact (positionAt_lt_positionAt hle hlt hlength').le
    · exact le_refl _

end Order

theorem corresponds (cs : List Char) : Corresponds cs where
  offsetAt_position := by
    intro offset hle hlength
    obtain ⟨n, rfl⟩ := Int.eq_ofNat_of_zero_le hle
    exact offsetAt_positionAt cs (Int.ofNat_le.mp hlength)
  positionAt_lt _ _ := positionAt_lt_positionAt
  positionAt_offset := by
    intro k line hline place hplace
    obtain ⟨offset, hoffset, hp⟩ := exists_positionAt hline hplace
    rw [← hp, offsetAt_positionAt cs hoffset]
  positionAt_below offset hneg := by
    rw [positionAt_eq_behind, positionAt_eq_behind, Int.toNat_of_nonpos (Int.le_of_lt hneg), Int.toNat_zero]
  positionAt_beyond offset hlength := by
    rw [positionAt_eq_behind, positionAt_eq_behind, Int.toNat_natCast, List.take_length,
      List.take_of_length_le (by omega)]
  offsetAt_beyond p hp := by
    rw [length_splitOn cs 0] at hp
    have hnone : (ofChars cs).starts[p.line.toNat]? = none :=
      List.getElem?_eq_none (by rw [ofChars, List.length_cons]; omega)
    rw [offsetAt, hnone, ofChars]
  contains_iff := by
    intro start stop offset hstart hle hstop hoffset hlength
    rw [Range.contains, Bool.and_eq_true, isUpTo_iff, isUpTo_iff, range]
    exact and_congr (positionAt_le_iff hstart (Int.le_trans hle hstop) hoffset hlength)
      (positionAt_le_iff hoffset hlength (Int.le_trans hstart hle) hstop)

end LineIndex

namespace IndexedDocument

/-- What may be asked of a document. -/
inductive Request where
  | edit (text : String)
  | positionAt (offset : Int)
  | offsetAt (p : Position)

def after (d : IndexedDocument) : Request → IndexedDocument
  | .edit text => d.edit text
  | .positionAt offset => (d.positionAt offset).2
  | .offsetAt p => (d.offsetAt p).2

/-- The text that a document has after a request. -/
def Request.textAfter (text : String) : Request → String
  | .edit text' => text'
  | .positionAt _ => text
  | .offsetAt _ => text

/-- An index that is kept is the one of the document's text. -/
def Current (d : IndexedDocument) : Prop :=
  d.index? = none ∨ d.index? = some (LineIndex.ofChars d.text.toList)

section Requests

variable {d : IndexedDocument}

theorem lines_of_current (hd : d.Current) :
    d.lines = (LineIndex.ofChars d.text.toList,
      { d with index? := some (LineIndex.ofChars d.text.toList) }) := by
  rcases hd with hnone | hsome
  · rw [lines, hnone]
  · simp only [lines, hsome]
    rw [← hsome]

theorem positionAt_of_current (hd : d.Current) (offset : Int) :
    d.positionAt offset = ((LineIndex.ofChars d.text.toList).positionAt offset,
      { d with index? := some (LineIndex.ofChars d.text.toList) }) := by
  rw [positionAt, lines_of_current hd]

theorem offsetAt_of_current (hd : d.Current) (p : Position) :
    d.offsetAt p = ((LineIndex.ofChars d.text.toList).offsetAt p,
      { d with index? := some (LineIndex.ofChars d.text.toList) }) := by
  rw [offsetAt, lines_of_current hd]

theorem current_after (hd : d.Current) (request : Request) : (d.after request).Current := by
  cases request with
  | edit text => exact .inl rfl
  | positionAt offset =>
    rw [after, positionAt_of_current hd]
    exact .inr rfl
  | offsetAt p =>
    rw [after, offsetAt_of_current hd]
    exact .inr rfl

theorem text_after (hd : d.Current) (request : Request) :
    (d.after request).text = request.textAfter d.text := by
  cases request with
  | edit text => rfl
  | positionAt offset => rw [after, positionAt_of_current hd, Request.textAfter]
  | offsetAt p => rw [after, offsetAt_of_current hd, Request.textAfter]

theorem after_all (hd : d.Current) (requests : List Request) :
    (requests.foldl after d).Current ∧
      (requests.foldl after d).text = requests.foldl Request.textAfter d.text := by
  induction requests generalizing d with
  | nil => exact ⟨hd, rfl⟩
  | cons request requests ih =>
    rw [List.foldl_cons, List.foldl_cons, ← text_after hd]
    exact ih (current_after hd request)

end Requests

/-- Offsets and positions correspond in every text, and a document answers by its text as it is, whatever
was asked of it before. -/
theorem answers_correspond (requests : List Request) (uri text : String) (version : Int)
    (language : Option String) :
    let d := requests.foldl after (create uri text version language)
    d.text = requests.foldl Request.textAfter text ∧
      LineIndex.Corresponds d.text.toList ∧
      (∀ offset, (d.positionAt offset).1 = (LineIndex.ofChars d.text.toList).positionAt offset) ∧
      ∀ p, (d.offsetAt p).1 = (LineIndex.ofChars d.text.toList).offsetAt p := by
  have hd : (create uri text version language).Current := .inl rfl
  obtain ⟨hcurrent, htext⟩ := after_all hd requests
  refine ⟨htext, LineIndex.corresponds _, fun offset => ?_, fun p => ?_⟩
  · rw [positionAt_of_current hcurrent]
  · rw [offsetAt_of_current hcurrent]

end IndexedDocument

end Swatch
