import Swatch.Proofs.Color.Gamut
import Swatch.Proofs.Color.Spelling

/-!
The format that a text is written in, and what a colour is offered and shown in. Main statement: a
colour that is read from a text, over exact rationals, has three bytes and an opacity from none to full,
offers every format once and the one that the text is written in first, and is shown by its bytes and
by their hexadecimal digits.
-/

namespace Swatch

open Text

/-! ### Shapes of texts -/

/-- A number as it is written without sign or exponent. -/
def IsNumeral (cs : List Char) : Prop :=
  ∃ whole fraction, cs = numeral whole fraction ∧ whole ≠ [] ∧
    ∀ c ∈ whole ++ fraction, c.isDigit = true

/-- A call that is the whole text: the letters of its name in whatever spelling, the `a` that may follow
them, and a body in brackets. -/
def IsCall (letters text body : List Char) : Prop :=
  ∃ name mark, text = Color.callChars name mark body ∧
    List.Forall₂ (fun letter c => isSpellingOf letter c = true) letters name ∧
    (mark = [] ∨ ∃ a, mark = [a] ∧ isSpellingOf 'a' a = true)

/-- Whether a call tells an opacity: by its name, by a fourth argument or by a slash. -/
def TellsOpacity (name : String) (text body : List Char) : Prop :=
  (text.take 4).map Char.toLower = name.toList ∨ 3 < (pieces isSeparator body).length ∨ '/' ∈ text

/-- A number and two percentages with blanks between them, and what may follow. -/
def IsTriple (text : List Char) : Prop :=
  ∃ h gap s gap' l rest, text = h ++ (gap ++ (s ++ '%' :: (gap' ++ (l ++ '%' :: rest)))) ∧
    IsNumeral h ∧ IsNumeral s ∧ IsNumeral l ∧
    ∀ blanks ∈ [gap, gap'], blanks ≠ [] ∧ ∀ c ∈ blanks, isBlank c = true

theorem hasAlpha_iff {name : String} {text body : List Char} :
    hasAlpha name text (pieces isSeparator body) = true ↔ TellsOpacity name text body := by
  simp [hasAlpha, TellsOpacity, or_assoc]

theorem IsNumeral.exists_head {cs : List Char} (h : IsNumeral cs) :
    ∃ c tail, cs = c :: tail ∧ c.isDigit = true := by
  obtain ⟨whole, fraction, rfl, hne, hdigits⟩ := h
  obtain ⟨c, more, rfl⟩ := List.exists_cons_of_ne_nil hne
  have hc : c.isDigit = true := hdigits c (by simp)
  cases fraction with
  | nil => exact ⟨c, more, rfl, hc⟩
  | cons d fraction => exact ⟨c, more ++ '.' :: d :: fraction, rfl, hc⟩

theorem IsTriple.exists_head {text : List Char} (h : IsTriple text) :
    ∃ c tail, text = c :: tail ∧ c.isDigit = true := by
  obtain ⟨hue, gap, s, gap', l, rest, rfl, hhue, -⟩ := h
  obtain ⟨c, tail, rfl, hc⟩ := hhue.exists_head
  exact ⟨c, _, rfl, hc⟩

theorem IsCall.exists_head {letter : Char} {letters text body : List Char}
    (h : IsCall (letter :: letters) text body) :
    ∃ c tail, text = c :: tail ∧ isSpellingOf letter c = true := by
  obtain ⟨name, mark, rfl, hname, -⟩ := h
  cases hname with
  | @cons _ c _ name hc _ => exact ⟨c, name ++ (mark ++ '(' :: (body ++ [')'])), rfl, hc⟩

theorem IsCall.unique {letters text body body' : List Char} (h : IsCall letters text body)
    (h' : IsCall letters text body') : body = body' := by
  obtain ⟨name, mark, rfl, hname, hmark⟩ := h
  obtain ⟨name', mark', heq, hname', hmark'⟩ := h'
  obtain ⟨-, hrest⟩ := List.append_inj heq (hname.length_eq.symm.trans hname'.length_eq)
  have hbracket : isSpellingOf 'a' '(' = false := by decide
  rcases hmark with rfl | ⟨a, rfl, ha⟩ <;> rcases hmark' with rfl | ⟨b, rfl, hb⟩
  · exact List.append_cancel_right (List.cons.inj hrest).2
  · rw [← (List.cons.inj hrest).1, hbracket] at hb
    cases hb
  · rw [(List.cons.inj hrest).1, hbracket] at ha
    cases ha
  · exact List.append_cancel_right (List.cons.inj (List.cons.inj hrest).2).2

/-! ### What the readers take -/

theorem forall₂_of_afterFolded? {letters text rest : List Char}
    (h : afterFolded? letters text = some rest) :
    ∃ name, text = name ++ rest ∧
      List.Forall₂ (fun letter c => isSpellingOf letter c = true) letters name := by
  induction letters generalizing text with
  | nil =>
    cases h
    exact ⟨[], rfl, .nil⟩
  | cons letter letters ih =>
    cases text with
    | nil => cases h
    | cons c text =>
      unfold afterFolded? at h
      split at h
      · rename_i hc
        obtain ⟨name, rfl, hname⟩ := ih h
        exact ⟨c :: name, rfl, .cons hc hname⟩
      · cases h

theorem isCall_of_callBody? {letters text body : List Char} (h : callBody? letters text = some body) :
    IsCall letters text body := by
  rw [callBody?, Option.bind_eq_bind, Option.bind_eq_some_iff] at h
  obtain ⟨rest, hrest, h⟩ := h
  obtain ⟨name, rfl, hname⟩ := forall₂_of_afterFolded? hrest
  -- What stands before the opening bracket, apart from the letters, is the mark.
  obtain ⟨mark, inner, rfl, hmark, hclosed⟩ : ∃ mark inner, rest = mark ++ '(' :: inner ∧
      (mark = [] ∨ ∃ a, mark = [a] ∧ isSpellingOf 'a' a = true) ∧
      (if inner.getLast? == some ')' then some inner.dropLast else none) = some body := by
    cases rest with
    | nil => cases h
    | cons c after =>
      dsimp only at h
      by_cases ha : isSpellingOf 'a' c = true
      · rw [if_pos ha] at h
        split at h
        · exact ⟨[c], _, rfl, .inr ⟨c, rfl, ha⟩, h⟩
        · cases h
      · rw [if_neg ha] at h
        split at h
        · rename_i inner heq
          exact ⟨[], inner, heq, .inl rfl, h⟩
        · cases h
  split at hclosed
  · rename_i hlast
    cases hclosed
    refine ⟨name, mark, ?_, hname, hmark⟩
    rw [Color.callChars, List.dropLast_append_getLast? _ (beq_iff_eq.mp hlast)]
  · cases hclosed

theorem isNumeral_of_plain? {cs rest : List Char} {d : Decimal}
    (h : CompactTriple.plain? cs = some (d, rest)) : ∃ n, cs = n ++ rest ∧ IsNumeral n := by
  simp only [CompactTriple.plain?, Option.bind_eq_bind, Option.bind_eq_some_iff] at h
  obtain ⟨⟨whole, afterWhole⟩, hwhole, h⟩ := h
  obtain ⟨hne, rfl⟩ := run?_eq_append hwhole
  have hdigits := forall_mem_of_run? hwhole
  have hplain : IsNumeral whole := ⟨whole, [], rfl, hne, by simpa using hdigits⟩
  dsimp only at h
  split at h
  · rename_i afterPoint
    split at h
    · rename_i fraction after hfraction
      cases h
      obtain ⟨hne', rfl⟩ := run?_eq_append hfraction
      obtain ⟨c, more, rfl⟩ := List.exists_cons_of_ne_nil hne'
      refine ⟨whole ++ '.' :: (c :: more), by simp, whole, c :: more, rfl, hne, ?_⟩
      exact fun c hc => (List.mem_append.mp hc).elim (hdigits c) (forall_mem_of_run? hfraction c)
    · cases h
      exact ⟨whole, rfl, hplain⟩
  · cases h
    exact ⟨whole, rfl, hplain⟩

theorem exists_of_percentage? {cs rest : List Char} {d : Decimal}
    (h : CompactTriple.percentage? cs = some (d, rest)) :
    ∃ gap n, cs = gap ++ (n ++ '%' :: rest) ∧ IsNumeral n ∧ gap ≠ [] ∧
      ∀ c ∈ gap, isBlank c = true := by
  simp only [CompactTriple.percentage?, CompactTriple.gap?, Option.bind_eq_bind,
    Option.bind_eq_some_iff, Option.map_eq_some_iff] at h
  obtain ⟨_, ⟨⟨gap, afterGap⟩, hgap, rfl⟩, ⟨d', afterNumber⟩, hnumber, h⟩ := h
  obtain ⟨hne, rfl⟩ := run?_eq_append hgap
  obtain ⟨n, hn, hnumeral⟩ := isNumeral_of_plain? hnumber
  dsimp only at hn h
  split at h
  · cases h
    exact ⟨gap, n, by rw [hn], hnumeral, hne, forall_mem_of_run? hgap⟩
  · cases h

/-- A triple is read as its three numbers, and then what follows them, as far as it can be read. -/
theorem exists_parts_of_read? {text rest : List Char} {x : CompactTriple}
    (h : CompactTriple.read? text = some (x, rest)) :
    ∃ n gap s gap' l tail, text = n ++ (gap ++ (s ++ '%' :: (gap' ++ (l ++ '%' :: tail)))) ∧
      IsNumeral n ∧ IsNumeral s ∧ IsNumeral l ∧
      (∀ blanks ∈ [gap, gap'], blanks ≠ [] ∧ ∀ c ∈ blanks, isBlank c = true) ∧
      ((∃ alpha, CompactTriple.slashed? tail = some (alpha, rest)) ∨ rest = tail) := by
  simp only [CompactTriple.read?, Option.bind_eq_bind, Option.bind_eq_some_iff] at h
  obtain ⟨⟨hue, afterHue⟩, hhue, ⟨saturation, afterSaturation⟩, hsaturation,
    ⟨lightness, afterLightness⟩, hlightness, hslashed⟩ := h
  obtain ⟨n, rfl, hn⟩ := isNumeral_of_plain? hhue
  obtain ⟨gap, s, rfl, hs, hgap⟩ := exists_of_percentage? hsaturation
  obtain ⟨gap', l, rfl, hl, hgap'⟩ := exists_of_percentage? hlightness
  refine ⟨n, gap, s, gap', l, afterLightness, rfl, hn, hs, hl, by simpa using ⟨hgap, hgap'⟩, ?_⟩
  dsimp only at hslashed
  split at hslashed
  · rename_i alpha after halpha
    cases hslashed
    exact .inl ⟨alpha, halpha⟩
  · cases hslashed
    exact .inr rfl

theorem isTriple_of_read? {text rest : List Char} {x : CompactTriple}
    (h : CompactTriple.read? text = some (x, rest)) : IsTriple text := by
  obtain ⟨n, gap, s, gap', l, tail, htext, hn, hs, hl, hgaps, -⟩ := exists_parts_of_read? h
  exact ⟨n, gap, s, gap', l, tail, htext, hn, hs, hl, hgaps⟩

namespace Format

theorem nodup_priority (f : Format) : f.priority.Nodup := by
  cases f <;> decide

theorem mem_priority (f g : Format) : g ∈ f.priority := by
  cases f <;> cases g <;> decide

/-- The format that a text is written in, if it is a colour and has no white space around it. -/
def IsFormOf (f : Format) (text : List Char) : Prop :=
  match f with
  | hex => ∃ digits, text = '#' :: digits ∧ (digits.length = 3 ∨ digits.length = 6)
  | hexAlpha => ∃ digits, text = '#' :: digits ∧ (digits.length = 4 ∨ digits.length = 8)
  | rgb => ∃ body, IsCall ['r', 'g', 'b'] text body ∧ ¬TellsOpacity "rgba" text body
  | rgba => ∃ body, IsCall ['r', 'g', 'b'] text body ∧ TellsOpacity "rgba" text body
  | hsl => ∃ body, IsCall ['h', 's', 'l'] text body ∧ ¬TellsOpacity "hsla" text body
  | hsla => ∃ body, IsCall ['h', 's', 'l'] text body ∧ TellsOpacity "hsla" text body
  | compact => IsTriple text

/-- How the texts in a format begin, in small letters and with the digit zero for any digit. -/
def opening : Format → Char
  | hex | hexAlpha => '#'
  | rgb | rgba => 'r'
  | hsl | hsla => 'h'
  | compact => '0'

/-- Formats that begin alike, the second one for texts that tell an opacity. -/
def twins : List (Format × Format) :=
  [(hex, hexAlpha), (rgb, rgba), (hsl, hsla)]

theorem eq_or_twins_of_opening_eq {f g : Format} (h : f.opening = g.opening) :
    f = g ∨ (f, g) ∈ twins ∨ (g, f) ∈ twins := by
  cases f <;> cases g <;> first | exact absurd h (by decide) | decide

theorem opening_eq {letter c : Char} (hletter : letter = 'r' ∨ letter = 'h')
    (hc : isSpellingOf letter c = true) : letter = if c.isDigit then '0' else c.toLower := by
  have hlower : c.toLower = letter := by
    rcases hletter with rfl | rfl <;> simpa [isSpellingOf] using hc
  have hdigit : ¬c.isDigit = true := by
    intro hdigit
    rw [toLower_of_isDigit hdigit] at hlower
    subst hlower
    rcases hletter with rfl | rfl <;> cases hdigit
  rw [if_neg hdigit, hlower]

theorem IsFormOf.exists_head {f : Format} {text : List Char} (h : f.IsFormOf text) :
    ∃ c tail, text = c :: tail ∧ f.opening = if c.isDigit then '0' else c.toLower := by
  cases f with
  | hex | hexAlpha =>
    obtain ⟨digits, rfl, -⟩ := h
    exact ⟨'#', digits, rfl, rfl⟩
  | rgb | rgba =>
    obtain ⟨body, hcall, -⟩ := h
    obtain ⟨c, tail, rfl, hc⟩ := hcall.exists_head
    exact ⟨c, tail, rfl, opening_eq (.inl rfl) hc⟩
  | hsl | hsla =>
    obtain ⟨body, hcall, -⟩ := h
    obtain ⟨c, tail, rfl, hc⟩ := hcall.exists_head
    exact ⟨c, tail, rfl, opening_eq (.inr rfl) hc⟩
  | compact =>
    obtain ⟨c, tail, rfl, hc⟩ := IsTriple.exists_head h
    exact ⟨c, tail, rfl, (if_pos hc).symm⟩

/-- A call does not both leave its opacity out and tell it. -/
theorem not_tellsOpacity {letters text : List Char} {name : String}
    (h : ∃ body, IsCall letters text body ∧ ¬TellsOpacity name text body) :
    ¬∃ body, IsCall letters text body ∧ TellsOpacity name text body := by
  obtain ⟨body, hbody, hnot⟩ := h
  rintro ⟨body', hbody', htells⟩
  rw [hbody'.unique hbody] at htells
  exact hnot htells

theorem not_isFormOf_of_mem_twins {f g : Format} {text : List Char} (h : (f, g) ∈ twins)
    (hf : f.IsFormOf text) : ¬g.IsFormOf text := by
  simp only [twins, List.mem_cons, Prod.mk.injEq, List.not_mem_nil, or_false] at h
  rcases h with ⟨rfl, rfl⟩ | ⟨rfl, rfl⟩ | ⟨rfl, rfl⟩
  · obtain ⟨digits, rfl, hlength⟩ := hf
    rintro ⟨digits', heq, hlength'⟩
    rw [← (List.cons.inj heq).2] at hlength'
    omega
  · exact not_tellsOpacity hf
  · exact not_tellsOpacity hf

/-- No text is written in two formats. -/
theorem IsFormOf.unique {f g : Format} {text : List Char} (hf : f.IsFormOf text) (hg : g.IsFormOf text) :
    f = g := by
  obtain ⟨c, tail, rfl, hopening⟩ := hf.exists_head
  obtain ⟨c', tail', htext', hopening'⟩ := hg.exists_head
  obtain ⟨rfl, rfl⟩ := List.cons.inj htext'
  rcases eq_or_twins_of_opening_eq (hopening.trans hopening'.symm) with rfl | htwins | htwins
  · rfl
  · exact absurd hg (not_isFormOf_of_mem_twins htwins hf)
  · exact absurd hf (not_isFormOf_of_mem_twins htwins hg)

end Format

namespace Color

section Forms

variable {α : Type} [Scalar α] {c : Color α} {text body : List Char}

theorem length_of_hexPairs {values pairs : List Nat} (h : hexPairs values = some pairs) :
    (pairs.length = 3 ∧ (values.length = 3 ∨ values.length = 6)) ∨
      (pairs.length = 4 ∧ (values.length = 4 ∨ values.length = 8)) := by
  unfold hexPairs at h
  split at h
  case h_5 => cases h
  all_goals
    cases h
    simp

theorem isFormOf_ofHex? {digits : List Char} (hc : ofHex? digits = some c) :
    c.written.IsFormOf ('#' :: digits) := by
  simp only [ofHex?, Option.bind_eq_bind, Option.bind_eq_some_iff] at hc
  obtain ⟨values, hvalues, pairs, hpairs, hc⟩ := hc
  have hlength := length_of_hexPairs hpairs
  rw [length_of_mapM hvalues] at hlength
  split at hc
  · cases hc
    exact ⟨digits, rfl, by simpa using hlength⟩
  · cases hc
    exact ⟨digits, rfl, by simpa using hlength⟩
  · cases hc

theorem written_ofRgbCall (hc : ofRgbCall text body = .ok (some c)) :
    c.written = if hasAlpha "rgba" text (pieces isSeparator body) then .rgba else .rgb := by
  unfold ofRgbCall at hc
  dsimp only at hc
  split at hc
  · obtain ⟨red?, -, hc⟩ := bind_eq_ok.mp hc
    obtain ⟨green?, -, hc⟩ := bind_eq_ok.mp hc
    obtain ⟨blue?, -, hc⟩ := bind_eq_ok.mp hc
    split at hc
    · cases hc
      rfl
    · cases hc
  · cases hc

theorem written_ofHsl {x : Hsl α} {alpha : α} {f : Format}
    (hc : some <$> ofHsl x alpha f = .ok (some c)) : c.written = f := by
  rw [ofHsl] at hc
  cases hchannels : x.clamped.channels with
  | error e =>
    rw [hchannels] at hc
    cases hc
  | ok rgb =>
    rw [hchannels] at hc
    cases hc
    rfl

theorem written_ofHslCall (hc : ofHslCall text body = .ok (some c)) :
    c.written = if hasAlpha "hsla" text (pieces isSeparator body) then .hsla else .hsl := by
  unfold ofHslCall at hc
  dsimp only at hc
  split at hc
  · split at hc
    · exact written_ofHsl hc
    · cases hc
  · cases hc

/-- The format of a call, by whether it tells an opacity. -/
theorem isFormOf_ite {name : String} {told untold : Format}
    (htold : TellsOpacity name text body → told.IsFormOf text)
    (huntold : ¬TellsOpacity name text body → untold.IsFormOf text) :
    (if hasAlpha name text (pieces isSeparator body) then told else untold).IsFormOf text := by
  by_cases halpha : hasAlpha name text (pieces isSeparator body) = true
  · rw [if_pos halpha]
    exact htold (hasAlpha_iff.mp halpha)
  · rw [if_neg halpha]
    exact huntold fun htells => halpha (hasAlpha_iff.mpr htells)

theorem isFormOf_ofRgbCall (hbody : callBody? ['r', 'g', 'b'] text = some body)
    (hc : ofRgbCall text body = .ok (some c)) : c.written.IsFormOf text := by
  have hcall := isCall_of_callBody? hbody
  rw [written_ofRgbCall hc]
  exact isFormOf_ite (fun htells => ⟨body, hcall, htells⟩) fun hnot => ⟨body, hcall, hnot⟩

theorem isFormOf_ofHslCall (hbody : callBody? ['h', 's', 'l'] text = some body)
    (hc : ofHslCall text body = .ok (some c)) : c.written.IsFormOf text := by
  have hcall := isCall_of_callBody? hbody
  rw [written_ofHslCall hc]
  exact isFormOf_ite (fun htells => ⟨body, hcall, htells⟩) fun hnot => ⟨body, hcall, hnot⟩

theorem isFormOf_ofCompact (hc : ofCompact text = .ok (some c)) : c.written.IsFormOf text := by
  unfold ofCompact at hc
  split at hc
  · rename_i hread
    rw [written_ofHsl hc]
    exact isTriple_of_read? hread
  · cases hc

/-- A colour remembers the format of its text. -/
theorem isFormOf_of_ofChars? {cs : List Char} (hc : ofChars? cs = some c) :
    c.written.IsFormOf (trim cs) := by
  have hread := attempt_of_ofChars? hc
  unfold attempt ofTrimmed at hread
  split at hread
  · rename_i heq
    rw [heq]
    exact isFormOf_ofHex? (Except.ok.inj hread)
  split at hread
  · rename_i hbody
    exact isFormOf_ofRgbCall hbody hread
  split at hread
  · rename_i hbody
    exact isFormOf_ofHslCall hbody hread
  · exact isFormOf_ofCompact hread

end Forms

/-! ### Components -/

theorem triple_eq_ok {α : Type} [Scalar α] {c : Color α} {x : Hsl α} {h s l : String}
    (hx : Hsl.ofRgb (c.red * 255) (c.green * 255) (c.blue * 255) = .ok x)
    (hh : componentText x.hue = .ok h) (hs : componentText x.saturation = .ok s)
    (hl : componentText x.lightness = .ok l) :
    c.triple = .ok (h ++ " " ++ s ++ "% " ++ l ++ "%") := by
  rw [triple, hx]
  change (do
    let hue ← componentText x.hue
    let saturation ← componentText x.saturation
    let lightness ← componentText x.lightness
    return hue ++ " " ++ saturation ++ "% " ++ lightness ++ "%") = _
  rw [hh, hs, hl]
  rfl

/-! ### Hexadecimal texts -/

/-- A hash and so many hexadecimal digits, small letters among them. -/
def IsHexText (count : Nat) (s : String) : Prop :=
  ∃ digits, s.toList = '#' :: digits ∧ digits.length = count ∧
    ∀ d ∈ digits, d ∈ "0123456789abcdef".toList

theorem isHexText_of_bytes {s : String} {bytes : List Nat} (hs : s.toList = '#' :: bytes.flatMap hexChars)
    (hbytes : ∀ n ∈ bytes, n ≤ 255) : IsHexText (2 * bytes.length) s := by
  refine ⟨bytes.flatMap hexChars, hs, ?_, ?_⟩
  · have hlengths : bytes.map (fun n => (hexChars n).length) = bytes.map fun _ => 2 :=
      List.map_congr_left fun n hn => congrArg List.length (hexChars_eq (hbytes n hn))
    rw [List.length_flatMap, hlengths, List.map_const', List.sum_replicate, smul_eq_mul, mul_comm]
  · intro d hd
    obtain ⟨n, hn, hd⟩ := List.mem_flatMap.mp hd
    exact forall_mem_hexChars (P := (· ∈ "0123456789abcdef".toList)) (by decide) (hbytes n hn) d hd

section Bytes

variable {c : Color Rat} {r g b : Nat}

theorem HasBytes.exists_hex (hc : c.HasBytes r g b) :
    ∃ s, c.hex false = .ok s ∧ s.toList = '#' :: [r, g, b].flatMap hexChars := by
  refine ⟨"#" ++ hexByte r ++ hexByte g ++ hexByte b, ?_, by simp [toList_hexByte]⟩
  rw [hex, hc.channels]
  rfl

theorem HasBytes.exists_hexAlpha (hc : c.HasBytes r g b) :
    ∃ s a, c.hex true = .ok s ∧ s.toList = '#' :: [r, g, b, a].flatMap hexChars ∧ a ≤ 255 ∧
      Scalar.rounded (c.alpha * 255) = (a : Int) := by
  obtain ⟨a, ha⟩ := Int.eq_ofNat_of_zero_le (isByte_rounded hc.alpha).1
  have habyte : a ≤ 255 := by
    have hle := (isByte_rounded hc.alpha).2
    rw [ha] at hle
    exact_mod_cast hle
  have hnearest : Scalar.nearest (c.alpha * 255) = .ok (a : Int) := by
    rw [Scalar.nearest_rat, ha]
  refine ⟨"#" ++ hexByte r ++ hexByte g ++ hexByte b ++ hexByte a, a, ?_, by simp [toList_hexByte],
    habyte, ha⟩
  rw [hex, hc.channels]
  change (Scalar.nearest (c.alpha * 255) >>= fun n =>
    return "#" ++ hexByte r ++ hexByte g ++ hexByte b ++ hexByte n) = _
  rw [hnearest]
  rfl

end Bytes

/-! ### Colours that are read -/

/-- A colour as it is read from a text: three bytes and an opacity, offered in every format and first in
that of the text, and shown by the bytes and by their hexadecimal digits. -/
structure IsReadingOf (c : Color Rat) (text : List Char) (r g b : Nat) : Prop where
  red : c.red = r / 255 ∧ r ≤ 255
  green : c.green = g / 255 ∧ g ≤ 255
  blue : c.blue = b / 255 ∧ b ≤ 255
  alpha : 0 ≤ c.alpha ∧ c.alpha ≤ 1
  formats_nodup : c.formats.Nodup
  mem_formats : ∀ f, f ∈ c.formats
  head?_formats : ∀ f, c.formats.head? = some f ↔ f.IsFormOf text
  channels : c.channels = .ok ((r, g, b) : Int × Int × Int)
  hex : ∃ s, c.hex false = .ok s ∧ IsHexText 6 s
  hexAlpha : ∃ s, c.hex true = .ok s ∧ IsHexText 8 s

theorem HasBytes.formats {c : Color Rat} {r g b : Nat} (hc : c.HasBytes r g b) :
    c.formats = c.written.priority :=
  congrArg Color.formats hc.eq

/-- Whatever numbers a text has, the colour that it is read as is in gamut and says how it is written. -/
theorem isReadingOf_of_ofText? {text : String} {c : Color Rat} (hc : ofText? text = some c) :
    ∃ r g b, c.IsReadingOf (trim text.toList) r g b := by
  obtain ⟨r, g, b, hbytes⟩ := inGamut_of_ofChars? hc
  have hform := isFormOf_of_ofChars? hc
  have hfirst : c.formats.head? = some c.written := congrArg List.head? hbytes.formats
  obtain ⟨s, hs, hchars⟩ := hbytes.exists_hex
  obtain ⟨s', a, hs', hchars', ha, -⟩ := hbytes.exists_hexAlpha
  refine ⟨r, g, b, ?_⟩
  exact {
    red := ⟨congrArg Color.red hbytes.eq, hbytes.red⟩
    green := ⟨congrArg Color.green hbytes.eq, hbytes.green⟩
    blue := ⟨congrArg Color.blue hbytes.eq, hbytes.blue⟩
    alpha := hbytes.alpha
    formats_nodup := hbytes.formats ▸ c.written.nodup_priority
    mem_formats := fun f => hbytes.formats ▸ c.written.mem_priority f
    head?_formats := by
      intro f
      rw [hfirst, Option.some_inj]
      exact ⟨fun h => h ▸ hform, fun h => hform.unique h⟩
    channels := hbytes.channels
    hex := ⟨s, hs, isHexText_of_bytes hchars (by simpa using ⟨hbytes.red, hbytes.green, hbytes.blue⟩)⟩
    hexAlpha := ⟨s', hs', isHexText_of_bytes hchars'
      (by simpa using ⟨hbytes.red, hbytes.green, hbytes.blue, ha⟩)⟩ }

theorem isReadingOf_of_ofText?_beyondRanges :
    ∃ c : Color Rat, ofText? " HSL(1e6deg, 250%, 33.3% / -4) " = some c ∧
      ∃ r g b, c.IsReadingOf (trim " HSL(1e6deg, 250%, 33.3% / -4) ".toList) r g b := by
  have hread : (ofText? " HSL(1e6deg, 250%, 33.3% / -4) " : Option (Color Rat)).isSome = true := by
    decide +kernel
  obtain ⟨c, hc⟩ := Option.isSome_iff_exists.mp hread
  exact ⟨c, hc, isReadingOf_of_ofText? hc⟩

end Color

end Swatch
