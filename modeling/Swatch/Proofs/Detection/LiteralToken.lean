import Swatch.Proofs.Color.Language
import Swatch.Proofs.Detection.Token

/-!
Tokens that are colours. A literal is looked for in the middle of a text in one way, and read as a colour
from end to end in another. Main statement: a token of hexadecimal digits, or a compact triple, is taken
from the text as what the notation allows, up to where it cannot go on, and so it is a colour by itself, in
a format of its own kind, whatever stands around it.
-/

namespace Swatch

namespace Text

/-- What no white space is, is no white space. -/
theorem isBlank_eq_false {p : Char → Bool} (hblank : ∀ n ∈ blankCodes, p (Char.ofNat n) = false) {c : Char}
    (hc : p c = true) : isBlank c = false := by
  by_contra hne
  have hnone := forall_of_blankCodes (P := fun c => p c = false) hblank (Bool.eq_true_of_not_eq_false hne)
  exact Bool.false_ne_true (hnone.symm.trans hc)

end Text

open Text

/-! ### A notation by itself -/

namespace Color

variable {cs token alpha : List Char}

theorem isBlank_of_isOpacityText (h : IsOpacityText alpha) : ∀ c ∈ alpha, isBlank c = false := by
  have hdigit {c : Char} (hc : isDigit c = true) : isBlank c = false :=
    isBlank_eq_false (by decide +kernel) hc
  have hpoint : isBlank '.' = false := by decide
  have hzero : isBlank '0' = false := by decide
  have hone : isBlank '1' = false := by decide
  cases h with
  | fraction _ hdigits =>
    rw [List.forall_mem_cons]
    exact ⟨hpoint, fun c hc => hdigit (hdigits c hc)⟩
  | zeroFraction _ hdigits =>
    rw [List.forall_mem_cons, List.forall_mem_cons]
    exact ⟨hzero, hpoint, fun c hc => hdigit (hdigits c hc)⟩
  | one => exact List.forall_mem_singleton.mpr hone
  | onePointed _ hzeros =>
    rw [List.forall_mem_cons, List.forall_mem_cons]
    exact ⟨hone, hpoint, fun c hc => hzeros c hc ▸ hzero⟩

theorem isBlank_getLast?_of_isCompact (h : IsCompact token) : ∀ c ∈ token.getLast?, isBlank c = false := by
  obtain ⟨n, gap, s, gap', l, rest, rfl, -, -, -, -, hrest⟩ := h
  have hpercent : isBlank '%' = false := by decide
  intro c hc
  rcases hrest with rfl | ⟨before, blanks, alpha, rfl, -, hopacity⟩
  · obtain rfl : '%' = c := by simpa [List.getLast?_append, List.getLast?_cons] using hc
    exact hpercent
  · obtain ⟨front, d, rfl⟩ : ∃ front d, alpha = front ++ [d] := by
      refine ⟨alpha.dropLast, alpha.getLast (by cases hopacity <;> simp), ?_⟩
      exact (List.dropLast_append_getLast _).symm
    obtain rfl : d = c := by simpa [List.getLast?_append, List.getLast?_cons] using hc
    exact isBlank_of_isOpacityText hopacity d (by simp)

/-- A text in a notation is a colour as it stands, if no white space is around it. -/
theorem exists_color_of_allows {n : Notation} (hallows : n.Allows token)
    (hhead : ∀ c ∈ token.head?, isBlank c = false) (hlast : ∀ c ∈ token.getLast?, isBlank c = false) :
    ∃ c : Color Float, ofChars? token = some c := by
  obtain ⟨c, hc⟩ := Notation.allows_iff.mpr hallows
  refine ⟨c, ?_⟩
  rw [ofChars?, attempt, trim_eq_self hhead hlast, Notation.ofTrimmed_eq_iff.mpr ⟨n, hc⟩]
  rfl

theorem ne_nil_of_ofChars? {c : Color Float} (hc : ofChars? cs = some c) : cs ≠ [] := by
  rintro rfl
  obtain ⟨_, _, hnil, -⟩ := (isFormOf_of_ofChars? hc).exists_head
  cases hnil

/-- How a text begins tells the kind of format that it is written in. -/
theorem opening_written {c : Color Float} {first : Char} {rest : List Char}
    (hc : ofChars? (first :: rest) = some c) (hfirst : isBlank first = false) :
    c.written.opening = if first.isDigit then '0' else first.toLower := by
  obtain ⟨d, tail, htrim, hopening⟩ := (isFormOf_of_ofChars? hc).exists_head
  have hprefix := trimEnd_isPrefix (trimStart (first :: rest))
  rw [← trim, htrim, trimStart_eq_self (by simpa using hfirst)] at hprefix
  obtain rfl : d = first := (List.cons_prefix_cons.mp hprefix).1
  exact hopening

end Color

/-! ### Tokens that are colours -/

namespace Token

/-- A recogniser of literals: what it reads is a piece of the text, and a colour in one of some formats. -/
structure ReadsColors (read : Recogniser (List Char)) (formats : List Format) : Prop where
  append_eq : ∀ {before cs token after}, read before cs = some (token, after) → cs = token ++ after
  exists_color : ∀ {before cs token after}, read before cs = some (token, after) →
    ∃ c : Color Float, Color.ofChars? token = some c ∧ c.written ∈ formats

variable {before : Option Char} {cs token after : List Char}

/-- A hexadecimal literal in a text is one by itself, and no word goes on behind it. -/
theorem hex?_eq_some_iff : hex? before cs = some (token, after) ↔
    cs = token ++ after ∧ Color.Notation.hex.Allows token ∧ ∀ c ∈ after.head?, isWord c = false := by
  constructor
  · intro h
    unfold hex? at h
    split at h
    · rename_i rest
      have hspan := span_eq_append isWord rest
      have hafter := List.head?_dropWhile_not isWord rest
      rw [List.span_eq_takeWhile_dropWhile] at h hspan
      dsimp only at h
      split at h
      · rename_i hdigits
        cases h
        rw [Bool.and_eq_true, List.all_eq_true, List.contains_iff_mem] at hdigits
        refine ⟨by rw [List.cons_append, hspan],
          ⟨_, rfl, hdigits.2, fun c hc => isHex_iff.mp (hdigits.1 c hc)⟩, fun c hc => ?_⟩
        rw [hc] at hafter
        exact hafter
      · cases h
    · cases h
  · rintro ⟨rfl, ⟨digits, rfl, hlength, hdigits⟩, hafter⟩
    have hword : hexDigits.all isWord = true := by decide +kernel
    have hspan : (digits ++ after).span isWord = (digits, after) :=
      span_append (fun c hc => List.all_eq_true.mp hword c (hdigits c hc)) hafter
    have hall : digits.all isHex = true := List.all_eq_true.mpr fun c hc => isHex_iff.mpr (hdigits c hc)
    simp only [hex?, List.cons_append, hspan, hall, List.contains_iff_mem.mpr hlength, Bool.and_self, if_true]

theorem readsColors_hex : ReadsColors hex? [.hex, .hexAlpha] where
  append_eq h := (hex?_eq_some_iff.mp h).1
  exists_color h := by
    obtain ⟨-, hallows, -⟩ := hex?_eq_some_iff.mp h
    obtain ⟨digits, rfl, hlength, hdigits⟩ := id hallows
    have hsign : isBlank '#' = false := by decide
    have hblank : hexDigits.all (!isBlank ·) = true := by decide +kernel
    obtain ⟨c, hc⟩ := Color.exists_color_of_allows hallows (by simpa using hsign) fun c hc => by
      rcases List.mem_cons.mp (List.mem_of_mem_getLast? hc) with rfl | hmem
      · exact hsign
      · simpa using List.all_eq_true.mp hblank c (hdigits c hmem)
    have hformats : ∀ f : Format, f.opening = '#' → f ∈ [.hex, .hexAlpha] := by
      intro f
      cases f <;> decide
    exact ⟨c, hc, hformats _ (Color.opening_written hc hsign)⟩

/-- A compact triple in a text is the longest one there, behind no character that a number or a call goes on
with. -/
theorem compact?_eq_some_iff : compact? before cs = some (token, after) ↔
    startsAfter (fun c => isWord c || c == '#' || c == '(') before = true ∧ cs = token ++ after ∧
      Color.IsCompact token ∧
      ∀ token' after', cs = token' ++ after' → Color.IsCompact token' → token'.length ≤ token.length := by
  -- A triple that the text begins with ends where the reader stops, or before.
  have hlongest {x : CompactTriple} {rest token' after' : List Char}
      (hread : CompactTriple.read? cs = some (x, rest)) (hcs : cs = token' ++ after')
      (htoken' : Color.IsCompact token') : rest <:+ after' := by
    obtain ⟨x', rest', hread', hrest'⟩ := htoken'.exists_read?_append after'
    rw [← hcs, hread] at hread'
    cases hread'
    exact hrest'
  constructor
  · intro h
    unfold compact? at h
    split at h
    · rename_i hbefore
      simp only [Option.map_eq_some_iff] at h
      obtain ⟨⟨x, rest⟩, hread, heq⟩ := h
      obtain ⟨token', hcs, hcompact⟩ := Color.exists_isCompact_of_read? hread
      rw [hcs, between_append] at heq
      cases heq
      refine ⟨hbefore, hcs, hcompact, fun token' after' hcs' htoken' => ?_⟩
      have hle := (hlongest hread hcs' htoken').length_le
      have hlength := congrArg List.length (hcs.symm.trans hcs')
      rw [List.length_append, List.length_append] at hlength
      omega
    · cases h
  · rintro ⟨hbefore, hcs, hcompact, hmost⟩
    obtain ⟨x, rest, hread, -⟩ := hcompact.exists_read?_append after
    rw [← hcs] at hread
    obtain ⟨token', hcs', hcompact'⟩ := Color.exists_isCompact_of_read? hread
    have hrest : rest = after := by
      refine (hlongest hread hcs hcompact).eq_of_length_le ?_
      have hle := hmost token' rest hcs' hcompact'
      have hlength := congrArg List.length (hcs.symm.trans hcs')
      rw [List.length_append, List.length_append] at hlength
      omega
    rw [compact?, if_pos hbefore, hread, hrest, hcs]
    exact congrArg (fun front => some (front, after)) (between_append token after)

theorem readsColors_compact : ReadsColors compact? [.compact] where
  append_eq h := (compact?_eq_some_iff.mp h).2.1
  exists_color h := by
    obtain ⟨-, -, hcompact, -⟩ := compact?_eq_some_iff.mp h
    obtain ⟨d, tail, rfl, hd⟩ := hcompact.isTriple.exists_head
    have hblank := isBlank_of_isDigit hd
    have hallows : Color.Notation.compact.Allows _ := hcompact
    obtain ⟨c, hc⟩ := Color.exists_color_of_allows hallows (by simpa using hblank)
      (Color.isBlank_getLast?_of_isCompact hcompact)
    have hformats : ∀ f : Format, f.opening = '0' → f ∈ [.compact] := by
      intro f
      cases f <;> decide
    have hopening := Color.opening_written hc hblank
    exact ⟨c, hc, hformats _ (hopening.trans (if_pos hd))⟩

theorem exists_of_functionHead? {name body : List Char} (h : functionHead? cs = some (name, body)) :
    ∃ letter first rest, cs = first :: rest ∧ (letter = 'r' ∨ letter = 'h') ∧
      isSpellingOf letter first = true := by
  simp only [functionHead?, Option.bind_eq_bind, Option.bind_eq_some_iff] at h
  obtain ⟨behind, hbehind, -⟩ := h
  rw [Option.orElse_eq_or] at hbehind
  rcases Option.or_eq_some_iff.mp hbehind with hred | ⟨-, hhue⟩
  · obtain ⟨letters, rfl, hletters⟩ := forall₂_of_afterFolded? hred
    obtain _ | ⟨hfirst, -⟩ := hletters
    exact ⟨'r', _, _, rfl, .inl rfl, hfirst⟩
  · obtain ⟨letters, rfl, hletters⟩ := forall₂_of_afterFolded? hhue
    obtain _ | ⟨hfirst, -⟩ := hletters
    exact ⟨'h', _, _, rfl, .inr rfl, hfirst⟩

/-- Calls of colour functions are written in the formats of those. -/
theorem written_of_function? {c : Color Float} (h : function? before cs = some (token, after))
    (hc : Color.ofChars? token = some c) : c.written ∈ [.rgb, .rgba, .hsl, .hsla] := by
  obtain ⟨hne, hprefix⟩ := begins_of_function? h
  unfold function? at h
  split at h
  · simp only [Option.bind_eq_bind, Option.bind_eq_some_iff] at h
    obtain ⟨⟨name, body⟩, hhead, -⟩ := h
    obtain ⟨letter, first, rest, rfl, hletter, hspelling⟩ := exists_of_functionHead? hhead
    obtain ⟨d, tail, rfl⟩ := List.exists_cons_of_ne_nil hne
    obtain rfl : d = first := (List.cons_prefix_cons.mp hprefix).1
    have hblank : isBlank d = false := by
      rcases hletter with rfl | rfl
      · exact isBlank_eq_false (by decide +kernel) hspelling
      · exact isBlank_eq_false (by decide +kernel) hspelling
    have hformats : ∀ f : Format, f.opening = 'r' ∨ f.opening = 'h' → f ∈ [.rgb, .rgba, .hsl, .hsla] := by
      intro f
      cases f <;> decide
    have hopening := Color.opening_written hc hblank
    rw [← Format.opening_eq hletter hspelling] at hopening
    exact hformats _ (hletter.imp hopening.trans hopening.trans)
  · cases h

end Token

end Swatch
