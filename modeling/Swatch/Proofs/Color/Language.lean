import Swatch.Proofs.Color.Call
import Swatch.Proofs.Number.Notation
import Swatch.Proofs.Text.Joining

/-!
Which texts are colours. There are four notations: hexadecimal digits, calls of the two functions, and
compact triples. Main statement: a text is a colour exactly if, without the white space around it, it is
written in one of the four; it is written in no more than one, so that they may be tried in any order;
and no text is an error.
-/

namespace Swatch

open Text

/-! ### Hexadecimal digits -/

def hexDigits : List Char :=
  "0123456789abcdefABCDEF".toList

theorem isHex_iff {c : Char} : isHex c = true ↔ c ∈ hexDigits := by
  constructor
  · intro hc
    have hascii : c.toNat < 128 := by
      have hle {a b : Char} (h : decide (a ≤ b) = true) : a.toNat ≤ b.toNat :=
        UInt32.le_iff_toNat_le.mp (of_decide_eq_true h)
      have hlast {p : Bool} {b : Char} (h : (p && decide (c ≤ b)) = true) (hb : b.toNat < 128) :
          c.toNat < 128 :=
        lt_of_le_of_lt (hle (Bool.and_eq_true_iff.mp h).2) hb
      unfold isHex hexValue? at hc
      split at hc
      · exact lt_of_le_of_lt (toNat_of_isDigit ‹_›).2 (by decide)
      split at hc
      · exact hlast ‹_› (by decide)
      split at hc
      · exact hlast ‹_› (by decide)
      · cases hc
    have hall : ∀ n : Fin 128, isHex (Char.ofNat n) = true → Char.ofNat n ∈ hexDigits := by
      decide +kernel
    simpa using hall ⟨c.toNat, hascii⟩ (by simpa using hc)
  · have hall : hexDigits.all isHex = true := by decide +kernel
    exact List.all_eq_true.mp hall c

theorem exists_mapM_iff {α β : Type} {f : α → Option β} {xs : List α} :
    (∃ ys, xs.mapM f = some ys) ↔ ∀ x ∈ xs, (f x).isSome = true := by
  induction xs with
  | nil => simp
  | cons x xs ih =>
    rw [List.forall_mem_cons, ← ih, Option.isSome_iff_exists]
    simp only [List.mapM_cons, Option.bind_eq_bind, Option.bind_eq_some_iff, Option.pure_def,
      Option.some.injEq]
    constructor
    · rintro ⟨_, y, hy, ys, hys, -⟩
      exact ⟨⟨y, hy⟩, ys, hys⟩
    · rintro ⟨⟨y, hy⟩, ys, hys⟩
      exact ⟨y :: ys, y, hy, ys, hys, rfl⟩

namespace Color

variable {α : Type} [Scalar α]

theorem exists_hexPairs_iff {values : List Nat} :
    (∃ pairs, hexPairs values = some pairs) ↔ values.length ∈ [3, 4, 6, 8] := by
  constructor
  · rintro ⟨pairs, hpairs⟩
    have hlength := length_of_hexPairs hpairs
    simp only [List.mem_cons, List.not_mem_nil, or_false]
    omega
  · intro hlength
    rcases values with
      _ | ⟨a, _ | ⟨b, _ | ⟨c, _ | ⟨d, _ | ⟨e, _ | ⟨f, _ | ⟨g, _ | ⟨h, _ | _⟩⟩⟩⟩⟩⟩⟩⟩ <;>
      first | exact ⟨_, rfl⟩ | simp at hlength

theorem exists_ofHex?_iff {digits : List Char} : (∃ c : Color α, ofHex? digits = some c) ↔
    digits.length ∈ [3, 4, 6, 8] ∧ ∀ c ∈ digits, c ∈ hexDigits := by
  simp only [ofHex?, Option.bind_eq_bind, Option.bind_eq_some_iff]
  constructor
  · rintro ⟨c, values, hvalues, pairs, hpairs, -⟩
    refine ⟨length_of_mapM hvalues ▸ exists_hexPairs_iff.mp ⟨pairs, hpairs⟩, fun d hd => isHex_iff.mp ?_⟩
    exact exists_mapM_iff.mp ⟨values, hvalues⟩ d hd
  · rintro ⟨hlength, hdigits⟩
    obtain ⟨values, hvalues⟩ := exists_mapM_iff.mpr fun d hd => isHex_iff.mpr (hdigits d hd)
    obtain ⟨pairs, hpairs⟩ := exists_hexPairs_iff.mpr ((length_of_mapM hvalues).symm ▸ hlength)
    have hcount : pairs.length = 3 ∨ pairs.length = 4 := (length_of_hexPairs hpairs).imp And.left And.left
    rcases hcount with hcount | hcount
    · obtain ⟨r, g, b, rfl⟩ := List.length_eq_three.mp hcount
      exact ⟨_, values, hvalues, _, hpairs, rfl⟩
    · obtain ⟨r, rest, rfl⟩ := List.exists_cons_of_length_eq_add_one hcount
      obtain ⟨g, b, a, rfl⟩ := List.length_eq_three.mp (Nat.succ.inj hcount)
      exact ⟨_, values, hvalues, _, hpairs, rfl⟩

/-! ### Arguments -/

/-- A text that begins with a number, where the longest one there has a nearest double. -/
def BeginsWithFinite (part : List Char) : Prop :=
  ∃ d rest, Decimal.TakesLongest part rest d ∧ |d.toRat| < Decimal.tooLarge

/-- A text that is a number with a nearest double, perhaps with underscores between its digits. -/
def IsFiniteLiteral (part : List Char) : Prop :=
  ∃ d, Decimal.Spells Decimal.IsGroupedRun part d ∧ |d.toRat| < Decimal.tooLarge

namespace Function

/-- What the functions take as one of the three components. -/
def Takes (f : Function) (part : List Char) : Prop :=
  match f with
  | rgb => IsFiniteLiteral part ∨ (part.getLast? = some '%' ∧ BeginsWithFinite part)
  | hsl => BeginsWithFinite part

section Arguments

variable {part : List Char} (hpart : ∀ c ∈ part, isBlank c = false)

include hpart

theorem beginsWithNumber_iff : BeginsWithNumber part ↔ BeginsWithFinite part := by
  have htrim : trimStart part = part := trimStart_eq_self fun c hc => hpart c (List.mem_of_mem_head? hc)
  simp only [BeginsWithNumber, BeginsWithFinite, Decimal.leading?_eq_some_iff, htrim, Decimal.isFinite_iff]

theorem isLiteral_iff : IsLiteral part ↔ IsFiniteLiteral part := by
  have htrim : trim part = part := trim_eq_self (fun c hc => hpart c (List.mem_of_mem_head? hc))
    fun c hc => hpart c (List.mem_of_mem_getLast? hc)
  simp only [IsLiteral, IsFiniteLiteral, Decimal.literal?_eq_some_iff, htrim, Decimal.isFinite_iff]

omit hpart in
theorem not_isFiniteLiteral (hlast : part.getLast? = some '%') : ¬IsFiniteLiteral part := by
  rintro ⟨d, hspells, -⟩
  have hdigit : ∀ c, isDigit c = true → c ≠ '%' := by
    rintro c hc rfl
    cases hc
  have hnone := hspells.forall_mem (P := (· ≠ '%')) (fun hrun => hrun.forall_mem hdigit (by decide)) (by simp)
  exact hnone '%' (List.mem_of_mem_getLast? hlast) rfl

theorem reads_iff (f : Function) : f.Reads part ↔ f.Takes part := by
  cases f with
  | rgb =>
    by_cases hlast : part.getLast? = some '%'
    · have hnot := not_isFiniteLiteral hlast
      simp only [Reads, Takes, hlast, if_true, beginsWithNumber_iff hpart, true_and, hnot, false_or]
    · simp only [Reads, Takes, hlast, if_false, isLiteral_iff hpart, false_and, or_false]
  | hsl => exact beginsWithNumber_iff hpart

end Arguments

end Function

/-! ### Compact triples -/

/-- How the opacity of a compact triple is written. -/
inductive IsOpacityText : (text : List Char) → Prop where
  | fraction {digits : List Char} (hne : digits ≠ []) (hdigits : ∀ c ∈ digits, isDigit c = true) :
      IsOpacityText ('.' :: digits)
  | zeroFraction {digits : List Char} (hne : digits ≠ []) (hdigits : ∀ c ∈ digits, isDigit c = true) :
      IsOpacityText ('0' :: '.' :: digits)
  | one : IsOpacityText ['1']
  | onePointed {zeros : List Char} (hne : zeros ≠ []) (hzeros : ∀ c ∈ zeros, c = '0') :
      IsOpacityText ('1' :: '.' :: zeros)

/-- What may follow the lightness of a compact triple: nothing, or a slash and an opacity. -/
def IsSlashed (rest : List Char) : Prop :=
  rest = [] ∨ ∃ before after alpha, rest = before ++ '/' :: (after ++ alpha) ∧
    (∀ c ∈ before ++ after, isBlank c = true) ∧ IsOpacityText alpha

/-- A compact triple: a number and two percentages with white space between them, and what may follow. -/
def IsCompact (text : List Char) : Prop :=
  ∃ h gap s gap' l rest, text = h ++ (gap ++ (s ++ '%' :: (gap' ++ (l ++ '%' :: rest)))) ∧
    IsNumeral h ∧ IsNumeral s ∧ IsNumeral l ∧
    (∀ blanks ∈ [gap, gap'], blanks ≠ [] ∧ ∀ c ∈ blanks, isBlank c = true) ∧ IsSlashed rest

theorem IsCompact.isTriple {text : List Char} (h : IsCompact text) : IsTriple text := by
  obtain ⟨n, gap, s, gap', l, rest, htext, hn, hs, hl, hgaps, -⟩ := h
  exact ⟨n, gap, s, gap', l, rest, htext, hn, hs, hl, hgaps⟩

section Compact

open CompactTriple

variable {cs token alpha after rest slashed : List Char}

theorem isOpacityText_of_alpha? (h : alpha? cs = some (alpha, after)) :
    cs = alpha ++ after ∧ IsOpacityText alpha := by
  unfold alpha? at h
  dsimp only at h
  split at h
  · simp only [Option.map_eq_some_iff] at h
    obtain ⟨⟨taken, after⟩, hfraction, heq⟩ := h
    cases heq
    split at hfraction
    · simp only [Option.map_eq_some_iff] at hfraction
      obtain ⟨⟨digits, after⟩, hrun, heq⟩ := hfraction
      cases heq
      obtain ⟨hne, rfl⟩ := run?_eq_append hrun
      exact ⟨rfl, .zeroFraction hne (forall_mem_of_run? hrun)⟩
    · cases hfraction
  · split at h
    · rename_i zeros after hrun
      cases h
      obtain ⟨hne, rfl⟩ := run?_eq_append hrun
      exact ⟨rfl, .onePointed hne (by simpa using forall_mem_of_run? hrun)⟩
    · cases h
      exact ⟨rfl, .one⟩
  · cases h
    exact ⟨rfl, .one⟩
  · split at h
    · simp only [Option.map_eq_some_iff] at h
      obtain ⟨⟨digits, after⟩, hrun, heq⟩ := h
      cases heq
      obtain ⟨hne, rfl⟩ := run?_eq_append hrun
      exact ⟨rfl, .fraction hne (forall_mem_of_run? hrun)⟩
    · cases h

theorem exists_isSlashed_of_slashed? (h : slashed? cs = some (alpha, after)) :
    ∃ slashed, cs = slashed ++ after ∧ IsSlashed slashed := by
  unfold slashed? at h
  split at h
  · rename_i behind hslash
    obtain ⟨before, hbefore, hcs⟩ := exists_blanks_append cs
    obtain ⟨blanks, hblanks, hbehind⟩ := exists_blanks_append behind
    obtain ⟨halpha, hopacity⟩ := isOpacityText_of_alpha? h
    refine ⟨before ++ '/' :: (blanks ++ alpha), ?_, .inr ⟨before, blanks, alpha, rfl, ?_, hopacity⟩⟩
    · rw [List.append_assoc, List.cons_append, List.append_assoc, ← halpha, ← hbehind, ← hslash, ← hcs]
    · exact List.forall_mem_append.mpr ⟨hbefore, hblanks⟩
  · cases h

/-- A triple that a text begins with is one by itself, however the text goes on. -/
theorem exists_isCompact_of_read? {x : CompactTriple} (h : read? cs = some (x, after)) :
    ∃ token, cs = token ++ after ∧ IsCompact token := by
  obtain ⟨n, gap, s, gap', l, tail, rfl, hn, hs, hl, hgaps, hrest⟩ := exists_parts_of_read? h
  have htriple {slashed : List Char} (h : IsSlashed slashed) :
      IsCompact (n ++ (gap ++ (s ++ '%' :: (gap' ++ (l ++ '%' :: slashed))))) :=
    ⟨n, gap, s, gap', l, slashed, rfl, hn, hs, hl, hgaps, h⟩
  rcases hrest with ⟨alpha, halpha⟩ | rfl
  · obtain ⟨slashed, rfl, hslashed⟩ := exists_isSlashed_of_slashed? halpha
    exact ⟨_, by simp, htriple hslashed⟩
  · exact ⟨_, by simp, htriple (.inl rfl)⟩

/-- An opacity is read to its end, or further. -/
theorem IsOpacityText.exists_alpha?_append (h : IsOpacityText alpha) (after : List Char) :
    ∃ found rest, alpha? (alpha ++ after) = some (found, rest) ∧ rest <:+ after := by
  cases h with
  | @fraction digits hne hdigits =>
    obtain ⟨more, rest, hrun, hrest⟩ := exists_run?_append hne hdigits after
    exact ⟨'.' :: (digits ++ more), rest, by simp [alpha?, hrun], hrest⟩
  | @zeroFraction digits hne hdigits =>
    obtain ⟨more, rest, hrun, hrest⟩ := exists_run?_append hne hdigits after
    exact ⟨'0' :: '.' :: (digits ++ more), rest, by simp [alpha?, hrun], hrest⟩
  | one =>
    rw [List.singleton_append]
    unfold alpha?
    dsimp only
    split
    · rename_i heq
      cases heq
    · rename_i rest heq
      obtain rfl := (List.cons.inj heq).2
      split
      · rename_i hrun
        exact ⟨_, _, rfl, (follows_of_run? hrun).suffix.trans (List.suffix_cons '.' rest)⟩
      · exact ⟨_, _, rfl, List.suffix_rfl⟩
    · rename_i heq
      exact ⟨_, _, rfl, (List.cons.inj heq).2 ▸ List.suffix_rfl⟩
    · rename_i hnone
      exact (hnone after rfl).elim
  | @onePointed zeros hne hzeros =>
    obtain ⟨more, rest, hrun, hrest⟩ :=
      exists_run?_append (p := (· == '0')) hne (fun c hc => beq_iff_eq.mpr (hzeros c hc)) after
    exact ⟨'1' :: '.' :: (zeros ++ more), rest, by simp [alpha?, hrun], hrest⟩

/-- What follows the lightness is read to its end, or further. -/
theorem IsSlashed.slashed?_append (h : IsSlashed slashed) (after : List Char) :
    (∃ found rest, slashed? (slashed ++ after) = some (found, rest) ∧ rest <:+ after) ∨
      (slashed? (slashed ++ after) = none ∧ slashed = []) := by
  rcases h with rfl | ⟨before, blanks, alpha, rfl, hblank, hopacity⟩
  · rw [List.nil_append]
    cases hread : slashed? after with
    | none => exact .inr ⟨rfl, rfl⟩
    | some found =>
      obtain ⟨slashed, rfl, -⟩ := exists_isSlashed_of_slashed? hread
      exact .inl ⟨found.1, found.2, rfl, List.suffix_append _ _⟩
  · obtain ⟨hbefore, hblanks⟩ := List.forall_mem_append.mp hblank
    have hhead : ∀ c ∈ (alpha ++ after).head?, isBlank c = false := by
      cases hopacity <;> rintro c hc <;> cases hc <;> decide
    obtain ⟨found, rest, hread, hrest⟩ := hopacity.exists_alpha?_append after
    refine .inl ⟨found, rest, ?_, hrest⟩
    rw [List.append_assoc, List.cons_append, List.append_assoc, slashed?,
      trimStart_append hbefore (by simp [isBlank])]
    change alpha? (trimStart (blanks ++ (alpha ++ after))) = _
    rw [trimStart_append hblanks hhead, hread]

theorem endsNumber_of_isBlank {c : Char} (hc : isBlank c = true) (rest : List Char) : EndsNumber (c :: rest) :=
  endsNumber_cons (forall_of_blankCodes (P := fun c => isDigit c = false ∧ c ≠ '.' ∧ c ≠ 'e' ∧ c ≠ 'E')
    (by decide +kernel) hc)

theorem exists_plain?_of_isNumeral (h : IsNumeral cs) (hrest : EndsNumber rest) :
    ∃ d, plain? (cs ++ rest) = some (d, rest) := by
  obtain ⟨whole, fraction, rfl, hne, hdigits⟩ := h
  exact ⟨_, plain?_numeral hne hdigits hrest⟩

theorem exists_percentage?_of_isNumeral {gap : List Char} (h : IsNumeral cs) (hne : gap ≠ [])
    (hgap : ∀ c ∈ gap, isBlank c = true) (rest : List Char) :
    ∃ d, percentage? (gap ++ (cs ++ '%' :: rest)) = some (d, rest) := by
  obtain ⟨d, hd⟩ : ∃ d, plain? (cs ++ '%' :: rest) = some (d, '%' :: rest) :=
    exists_plain?_of_isNumeral h (endsNumber_cons (by decide))
  obtain ⟨c, tail, hcs, hc⟩ := h.exists_head
  have hhead : ∀ c ∈ (cs ++ '%' :: rest).head?, isBlank c = false := by
    rw [hcs]
    rintro d hd
    cases hd
    exact isBlank_of_isDigit hc
  have hskip : gap? (gap ++ (cs ++ '%' :: rest)) = some (cs ++ '%' :: rest) := by
    rw [gap?, run?_append hne hgap hhead]
    rfl
  refine ⟨d, ?_⟩
  rw [percentage?, hskip]
  simp only [Option.bind_eq_bind, Option.bind_some, hd]

/-- A triple is read to its end, or further. -/
theorem IsCompact.exists_read?_append (h : IsCompact token) (after : List Char) :
    ∃ x rest, read? (token ++ after) = some (x, rest) ∧ rest <:+ after := by
  obtain ⟨n, gap, s, gap', l, slashed, rfl, hn, hs, hl, hgaps, hslashed⟩ := h
  obtain ⟨⟨hne, hgap⟩, hne', hgap'⟩ : (gap ≠ [] ∧ ∀ c ∈ gap, isBlank c = true) ∧
    gap' ≠ [] ∧ ∀ c ∈ gap', isBlank c = true := by simpa using hgaps
  obtain ⟨lightness, hlightness⟩ := exists_percentage?_of_isNumeral hl hne' hgap' (slashed ++ after)
  obtain ⟨saturation, hsaturation⟩ :=
    exists_percentage?_of_isNumeral hs hne hgap (gap' ++ (l ++ '%' :: (slashed ++ after)))
  obtain ⟨blank, more, rfl⟩ := List.exists_cons_of_ne_nil hne
  obtain ⟨hue, hhue⟩ := exists_plain?_of_isNumeral hn (endsNumber_of_isBlank (hgap blank List.mem_cons_self)
    (more ++ (s ++ '%' :: (gap' ++ (l ++ '%' :: (slashed ++ after))))))
  rw [← List.cons_append] at hhue
  simp only [List.append_assoc, List.cons_append] at hhue hsaturation hlightness ⊢
  rcases hslashed.slashed?_append after with ⟨found, rest, hread, hrest⟩ | ⟨hnone, rfl⟩
  · refine ⟨⟨hue, saturation, lightness, some found⟩, rest, ?_, hrest⟩
    simp only [read?, Option.bind_eq_bind, hhue, Option.bind_some, hsaturation, hlightness,
      hread]
  · rw [List.nil_append] at hhue hsaturation hlightness hnone ⊢
    refine ⟨⟨hue, saturation, lightness, none⟩, after, ?_, List.suffix_rfl⟩
    simp only [read?, Option.bind_eq_bind, hhue, Option.bind_some, hsaturation, hlightness,
      hnone]

theorem exists_read?_iff : (∃ x, read? cs = some (x, [])) ↔ IsCompact cs := by
  constructor
  · rintro ⟨x, hread⟩
    obtain ⟨token, rfl, hcompact⟩ := exists_isCompact_of_read? hread
    rwa [List.append_nil]
  · intro h
    obtain ⟨x, rest, hread, hrest⟩ := h.exists_read?_append []
    rw [List.append_nil, List.suffix_nil.mp hrest] at hread
    exact ⟨x, hread⟩

end Compact

/-! ### The four notations -/

inductive Notation where
  | hex
  | call (f : Function)
  | compact
  deriving DecidableEq, Repr

namespace Notation

def all : List Notation :=
  [.hex, .call .rgb, .call .hsl, .compact]

theorem mem_all (n : Notation) : n ∈ all := by
  rcases n with _ | ⟨_ | _⟩ | _ <;> decide

/-- The texts that are written in a notation. -/
def Allows (n : Notation) (text : List Char) : Prop :=
  match n with
  | hex => ∃ digits, text = '#' :: digits ∧ digits.length ∈ [3, 4, 6, 8] ∧ ∀ c ∈ digits, c ∈ hexDigits
  | call f => ∃ body x y z more, IsCall f.letters text body ∧ Joins isSeparator (x :: y :: z :: more) body ∧
      f.Takes x ∧ f.Takes y ∧ f.Takes z
  | compact => IsCompact text

/-- The reading of a text behind a number sign. -/
def hexReading? (text : List Char) : Option (Except ArithmeticError (Option (Color α))) :=
  match text with
  | '#' :: digits => some (.ok (ofHex? digits))
  | _ => none

/-- The reading of a text that is a triple to its end. -/
def compactReading? (text : List Char) : Option (Except ArithmeticError (Option (Color α))) :=
  match CompactTriple.read? text with
  | some (_, []) => some (ofCompact text)
  | _ => none

/-- What comes of reading a text in a notation, if the text has the shape that the notation asks for. -/
def attempt? : Notation → (text : List Char) → Option (Except ArithmeticError (Option (Color α)))
  | hex, text => hexReading? text
  | call f, text => (callBody? f.letters text).map (f.ofCall text)
  | compact, text => compactReading? text

theorem hexReading?_eq_some_iff {text : List Char} {reading : Except ArithmeticError (Option (Color α))} :
    hexReading? text = some reading ↔ ∃ digits, text = '#' :: digits ∧ .ok (ofHex? digits) = reading := by
  constructor
  · intro h
    unfold hexReading? at h
    split at h
    · exact ⟨_, rfl, Option.some.inj h⟩
    · cases h
  · rintro ⟨digits, rfl, rfl⟩
    rfl

theorem compactReading?_eq_some_iff {text : List Char} {reading : Except ArithmeticError (Option (Color α))} :
    compactReading? text = some reading ↔
      ∃ x, CompactTriple.read? text = some (x, []) ∧ ofCompact text = reading := by
  constructor
  · intro h
    unfold compactReading? at h
    split at h
    · rename_i hread
      exact ⟨_, hread, Option.some.inj h⟩
    · cases h
  · rintro ⟨x, hread, rfl⟩
    rw [compactReading?, hread]

/-- Tries notations in the given order and goes by the first whose shape the text has. -/
def tryAll (order : List Notation) (text : List Char) : Except ArithmeticError (Option (Color α)) :=
  (order.findSome? (·.attempt? text)).getD (.ok none)

theorem compactReading?_getD (text : List Char) :
    (compactReading? text).getD (.ok none) = ofCompact (α := α) text := by
  unfold compactReading?
  split
  · rfl
  · rename_i hnot
    unfold ofCompact
    split
    · rename_i hread
      exact absurd hread (hnot _)
    · rfl

theorem tryAll_all (text : List Char) : tryAll all text = ofTrimmed (α := α) text := by
  unfold tryAll all ofTrimmed
  split
  · rfl
  · rename_i hhash
    have hhex : hexReading? (α := α) text = none := by
      unfold hexReading?
      split
      · rename_i digits
        exact absurd rfl (hhash digits)
      · rfl
    simp only [List.findSome?, attempt?, hhex, Function.letters]
    cases callBody? ['r', 'g', 'b'] text with
    | some body => rfl
    | none =>
      cases callBody? ['h', 's', 'l'] text with
      | some body => rfl
      | none =>
        rw [← compactReading?_getD]
        cases compactReading? (α := α) text <;> rfl

/-- How the texts in a notation begin, in small letters and with the digit zero for any digit. -/
def opening : Notation → Char
  | hex => '#'
  | call f => f.initial
  | compact => '0'

theorem opening_injective {n m : Notation} (h : n.opening = m.opening) : n = m := by
  rcases n with _ | ⟨_ | _⟩ | _ <;> rcases m with _ | ⟨_ | _⟩ | _ <;>
    first | rfl | exact absurd h (by decide)

theorem exists_head_of_attempt? {n : Notation} {text : List Char}
    (h : (n.attempt? (α := α) text).isSome = true) :
    ∃ c tail, text = c :: tail ∧ n.opening = if c.isDigit then '0' else c.toLower := by
  obtain ⟨reading, h⟩ := Option.isSome_iff_exists.mp h
  cases n with
  | hex =>
    obtain ⟨digits, rfl, -⟩ := hexReading?_eq_some_iff.mp h
    exact ⟨'#', digits, rfl, rfl⟩
  | call f =>
    obtain ⟨body, hbody, -⟩ := Option.map_eq_some_iff.mp h
    have hopens : f.Opens text (body ++ [')']) := isCall_of_callBody? hbody
    exact hopens.exists_head
  | compact =>
    obtain ⟨x, hread, -⟩ := compactReading?_eq_some_iff.mp h
    obtain ⟨c, tail, rfl, hc⟩ := (isTriple_of_read? hread).exists_head
    exact ⟨c, tail, rfl, (if_pos hc).symm⟩

/-- No text has the shapes of two notations. -/
theorem attempt?_unique {n m : Notation} {text : List Char} (hn : (n.attempt? (α := α) text).isSome = true)
    (hm : (m.attempt? (α := α) text).isSome = true) : n = m := by
  obtain ⟨c, tail, rfl, hopening⟩ := exists_head_of_attempt? hn
  obtain ⟨c', tail', heq, hopening'⟩ := exists_head_of_attempt? hm
  obtain ⟨rfl, rfl⟩ := List.cons.inj heq
  exact opening_injective (hopening.trans hopening'.symm)

/-- The notations may be tried in any order. -/
theorem tryAll_eq_of_perm {order : List Notation} (horder : order.Perm all) (text : List Char) :
    tryAll (α := α) order text = ofTrimmed text := by
  rw [← tryAll_all, tryAll, tryAll]
  congr 1
  cases hall : all.findSome? (·.attempt? (α := α) text) with
  | none =>
    rw [List.findSome?_eq_none_iff] at hall ⊢
    exact fun n hn => hall n (horder.mem_iff.mp hn)
  | some reading =>
    obtain ⟨n, hn, hread⟩ := List.exists_of_findSome?_eq_some hall
    cases horder' : order.findSome? (·.attempt? (α := α) text) with
    | none =>
      rw [List.findSome?_eq_none_iff] at horder'
      exact absurd (horder' n (horder.mem_iff.mpr hn)) (by simp [hread])
    | some reading' =>
      obtain ⟨m, -, hread'⟩ := List.exists_of_findSome?_eq_some horder'
      obtain rfl := attempt?_unique (Option.isSome_of_eq_some hread) (Option.isSome_of_eq_some hread')
      exact hread'.symm.trans hread

theorem allows_hex_iff {text : List Char} :
    (∃ c : Color Float, hex.attempt? text = some (.ok (some c))) ↔ hex.Allows text := by
  constructor
  · rintro ⟨c, hc⟩
    obtain ⟨digits, rfl, hread⟩ := hexReading?_eq_some_iff.mp hc
    exact ⟨digits, rfl, exists_ofHex?_iff.mp ⟨c, Except.ok.inj hread⟩⟩
  · rintro ⟨digits, rfl, hdigits⟩
    obtain ⟨c, hc⟩ := exists_ofHex?_iff (α := Float).mpr hdigits
    exact ⟨c, congrArg (some ∘ Except.ok) hc⟩

theorem callBody?_eq_some_iff {f : Function} {text body : List Char} :
    callBody? f.letters text = some body ↔ IsCall f.letters text body := by
  refine ⟨isCall_of_callBody?, fun h => ?_⟩
  have hopens : f.Opens text (body ++ [')']) := h
  exact hopens.callBody?_eq_some_iff.mpr rfl

theorem allows_call_iff {f : Function} {text : List Char} :
    (∃ c : Color Float, (call f).attempt? text = some (.ok (some c))) ↔ (call f).Allows text := by
  have hparts {body : List Char} {arguments : List (List Char)} (h : Joins isSeparator arguments body) :
      ∀ part ∈ arguments, ∀ c ∈ part, isBlank c = false := by
    intro part hpart c hc
    have hnone := h.forall_mem_word part hpart c hc
    simp only [isSeparator, Bool.or_eq_false_iff] at hnone
    exact hnone.1.1
  constructor
  · rintro ⟨c, hc⟩
    rw [attempt?, Option.map_eq_some_iff] at hc
    obtain ⟨body, hbody, hc⟩ := hc
    obtain ⟨x, y, z, more, hpieces, hx, hy, hz⟩ := Function.exists_ofCall_iff.mp ⟨c, hc⟩
    have hjoins := pieces_eq_iff.mp hpieces
    have hblank := hparts hjoins
    simp only [List.forall_mem_cons] at hblank
    obtain ⟨hbx, hby, hbz, -⟩ := hblank
    exact ⟨body, x, y, z, more, callBody?_eq_some_iff.mp hbody, hjoins, (f.reads_iff hbx).mp hx,
      (f.reads_iff hby).mp hy, (f.reads_iff hbz).mp hz⟩
  · rintro ⟨body, x, y, z, more, hcall, hjoins, hx, hy, hz⟩
    have hblank := hparts hjoins
    simp only [List.forall_mem_cons] at hblank
    obtain ⟨hbx, hby, hbz, -⟩ := hblank
    have hreads : f.ReadsAll (pieces isSeparator body) :=
      ⟨x, y, z, more, pieces_eq_iff.mpr hjoins, (f.reads_iff hbx).mpr hx, (f.reads_iff hby).mpr hy,
        (f.reads_iff hbz).mpr hz⟩
    obtain ⟨c, hc⟩ := (@Function.exists_ofCall_iff f text body).mpr hreads
    exact ⟨c, by rw [attempt?, callBody?_eq_some_iff.mpr hcall, Option.map_some, hc]⟩

theorem allows_compact_iff {text : List Char} :
    (∃ c : Color Float, compact.attempt? text = some (.ok (some c))) ↔ compact.Allows text := by
  constructor
  · rintro ⟨c, hc⟩
    obtain ⟨x, hread, -⟩ := compactReading?_eq_some_iff.mp hc
    exact exists_read?_iff.mp ⟨x, hread⟩
  · intro h
    obtain ⟨x, hread⟩ := exists_read?_iff.mpr h
    obtain ⟨r, g, b, hchannels, -⟩ := @Hsl.channels_clamped
      ⟨Binary64.nearest x.hue, Binary64.nearest x.saturation, Binary64.nearest x.lightness⟩
      (Binary64.isNumber_nearest _) (Binary64.isNumber_nearest _) (Binary64.isNumber_nearest _)
    refine ⟨ofChannels (r, g, b) (opacity x.alpha) .compact, ?_⟩
    refine compactReading?_eq_some_iff.mpr ⟨x, hread, ?_⟩
    rw [ofCompact, hread]
    change some <$> (do
      return ofChannels (← (Hsl.mk (Binary64.nearest x.hue) (Binary64.nearest x.saturation)
        (Binary64.nearest x.lightness)).clamped.channels) (opacity x.alpha) .compact) = _
    rw [hchannels]
    rfl

/-- A text is a colour in a notation exactly if it is written in it. -/
theorem allows_iff {n : Notation} {text : List Char} :
    (∃ c : Color Float, n.attempt? text = some (.ok (some c))) ↔ n.Allows text := by
  cases n with
  | hex => exact allows_hex_iff
  | call f => exact allows_call_iff
  | compact => exact allows_compact_iff

theorem ofTrimmed_eq_iff {text : List Char} {c : Color α} :
    ofTrimmed text = .ok (some c) ↔ ∃ n : Notation, n.attempt? text = some (.ok (some c)) := by
  rw [← tryAll_all, tryAll]
  constructor
  · intro h
    cases hall : all.findSome? (·.attempt? (α := α) text) with
    | none =>
      rw [hall] at h
      cases h
    | some reading =>
      rw [hall] at h
      obtain ⟨n, -, hn⟩ := List.exists_of_findSome?_eq_some hall
      exact ⟨n, hn.trans (congrArg some h)⟩
  · rintro ⟨n, hn⟩
    cases hall : all.findSome? (·.attempt? (α := α) text) with
    | none =>
      rw [List.findSome?_eq_none_iff] at hall
      exact absurd (hall n n.mem_all) (by simp [hn])
    | some reading =>
      obtain ⟨m, -, hm⟩ := List.exists_of_findSome?_eq_some hall
      obtain rfl := attempt?_unique (Option.isSome_of_eq_some hn) (Option.isSome_of_eq_some hm)
      exact Option.some.inj (hm.symm.trans hn)

end Notation

/-- The texts that are colours are those of four languages, of which no two share a text, so that these may
be asked for in any order; and no text is an error. -/
theorem notation_of_color (s : String) :
    (∃ c?, attempt (α := Float) s.toList = .ok c?) ∧
      ((∃ c : Color Float, ofText? s = some c) ↔ ∃ n : Notation, n.Allows (trim s.toList)) ∧
      (∀ n m : Notation, n.Allows (trim s.toList) → m.Allows (trim s.toList) → n = m) ∧
      ∀ order : List Notation, order.Perm Notation.all →
        Notation.tryAll order (trim s.toList) = attempt (α := Float) s.toList := by
  refine ⟨⟨_, attempt_eq s.toList⟩, ?_, fun n m hn hm => ?_, fun order horder =>
    Notation.tryAll_eq_of_perm horder _⟩
  · have hread (c : Color Float) : ofText? s = some c ↔ ofTrimmed (trim s.toList) = .ok (some c) := by
      rw [ofText?, ← attempt, attempt_eq, Except.ok.injEq]
    simp only [hread, Notation.ofTrimmed_eq_iff, ← Notation.allows_iff]
    exact exists_comm
  · obtain ⟨c, hc⟩ := Notation.allows_iff.mpr hn
    obtain ⟨c', hc'⟩ := Notation.allows_iff.mpr hm
    exact Notation.attempt?_unique (Option.isSome_of_eq_some hc) (Option.isSome_of_eq_some hc')

end Color

end Swatch
