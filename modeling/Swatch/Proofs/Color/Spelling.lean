import Swatch.Color.Writer
import Swatch.Proofs.Number.Written

/-!
How the texts of a colour are read, over exact rationals: hexadecimal literals, calls of the four
functions and compact triples, each by the parts that it is written from.
-/

namespace Swatch

open Text

/-! ### Parts of a text -/

theorem isSeparator_of_isDigit {c : Char} (hc : c.isDigit = true) : isSeparator c = false := by
  simp only [isSeparator, isBlank_of_isDigit hc, Bool.false_or, Bool.or_eq_false_iff,
    beq_eq_false_iff_ne]
  exact ⟨ne_of_isDigit hc rfl, ne_of_isDigit hc rfl⟩

theorem Denotes.mem {cs : List Char} {q : Rat} (h : Denotes cs q) {c : Char} (hc : c ∈ cs) :
    c.isDigit = true ∨ c = '.' := by
  obtain ⟨whole, fraction, rfl, -, hdigits, -⟩ := h
  cases fraction with
  | nil => exact .inl (hdigits c (List.mem_append_left _ hc))
  | cons d fraction =>
    rcases List.mem_append.mp hc with hwhole | hrest
    · exact .inl (hdigits c (List.mem_append_left _ hwhole))
    rcases List.mem_cons.mp hrest with rfl | hfraction
    · exact .inr rfl
    · exact .inl (hdigits c (List.mem_append_right _ hfraction))

theorem Denotes.isSeparator_eq {cs : List Char} {q : Rat} (h : Denotes cs q) :
    ∀ c ∈ cs, isSeparator c = false := by
  intro c hc
  rcases h.mem hc with hdigit | rfl
  · exact isSeparator_of_isDigit hdigit
  · rfl

theorem Denotes.ne_nil {cs : List Char} {q : Rat} (h : Denotes cs q) : cs ≠ [] := by
  rintro rfl
  obtain ⟨whole, fraction, hnil, hne, -⟩ := h
  cases fraction with
  | nil => exact hne hnil.symm
  | cons d fraction => exact absurd hnil.symm (by simp [numeral])

namespace Color

variable {α : Type} [Scalar α]

theorem ofText?_eq {s : String} {cs : List Char} {c : Color α} (hs : s.toList = cs)
    (hhead : ∀ d ∈ cs.head?, isBlank d = false) (hlast : ∀ d ∈ cs.getLast?, isBlank d = false)
    (hread : ofTrimmed cs = .ok (some c)) : ofText? s = some c := by
  rw [ofText?, ofChars?, attempt, hs, trim_eq_self hhead hlast, hread]
  rfl

/-! ### Hexadecimal literals -/

def hexChars (n : Nat) : List Char :=
  List.replicate (2 - (Nat.toDigits 16 n).length) '0' ++ Nat.toDigits 16 n

theorem toList_hexByte (n : Nat) : (hexByte n).toList = hexChars n := by
  have hnonneg : ¬(n : Int) < 0 := by omega
  simp only [hexByte, hnonneg, if_false, String.toList_ofList, List.nil_append]
  rfl

/-- A byte is written with two digits. -/
theorem hexChars_eq {n : Nat} (hn : n ≤ 255) :
    hexChars n = [Nat.digitChar (n / 16), Nat.digitChar (n % 16)] := by
  -- A byte has few enough values to go through.
  have hall : ∀ n : Fin 256, hexChars n = [Nat.digitChar (n.val / 16), Nat.digitChar (n.val % 16)] := by
    decide +kernel
  exact hall ⟨n, Nat.lt_succ_of_le hn⟩

/-- What holds of the sixteen digits holds of every character that a byte is written with. -/
theorem forall_mem_hexChars {P : Char → Prop} (hP : ∀ d : Fin 16, P (Nat.digitChar d)) {n : Nat}
    (hn : n ≤ 255) : ∀ c ∈ hexChars n, P c := by
  have hhigh := hP ⟨n / 16, by omega⟩
  have hlow := hP ⟨n % 16, by omega⟩
  simpa [hexChars_eq hn] using ⟨hhigh, hlow⟩

theorem isBlank_hexChars {n : Nat} (hn : n ≤ 255) : ∀ c ∈ hexChars n, isBlank c = false :=
  forall_mem_hexChars (P := fun c => isBlank c = false) (by decide) hn

theorem mapM_hexChars {n : Nat} (hn : n ≤ 255) :
    (hexChars n).mapM hexValue? = some [n / 16, n % 16] := by
  have hdigit : ∀ d : Fin 16, hexValue? (Nat.digitChar d) = some d.val := by decide
  have hhigh := hdigit ⟨n / 16, by omega⟩
  have hlow := hdigit ⟨n % 16, by omega⟩
  simp [hexChars_eq hn, hhigh, hlow]

theorem mapM_flatMap_hexChars {bytes : List Nat} (hbytes : ∀ n ∈ bytes, n ≤ 255) :
    (bytes.flatMap hexChars).mapM hexValue? = some (bytes.flatMap fun n => [n / 16, n % 16]) := by
  induction bytes with
  | nil => rfl
  | cons n bytes ih =>
    rw [List.flatMap_cons, List.mapM_append, mapM_hexChars (hbytes n List.mem_cons_self),
      ih fun m hm => hbytes m (List.mem_cons_of_mem n hm)]
    rfl

/-- Pairs of hexadecimal digits after a hash. -/
theorem ofText?_hex {s : String} {bytes : List Nat} {c : Color Rat}
    (hs : s.toList = '#' :: bytes.flatMap hexChars) (hbytes : ∀ n ∈ bytes, n ≤ 255)
    (hread : ofHex? (bytes.flatMap hexChars) = some c) : ofText? s = some c := by
  have hblank : ∀ d ∈ '#' :: bytes.flatMap hexChars, isBlank d = false := by
    intro d hd
    rcases List.mem_cons.mp hd with rfl | hd
    · rfl
    · obtain ⟨n, hn, hd⟩ := List.mem_flatMap.mp hd
      exact isBlank_hexChars (hbytes n hn) d hd
  exact ofText?_eq hs (fun d hd => hblank d (List.mem_of_mem_head? hd))
    (fun d hd => hblank d (List.mem_of_getLast? hd)) (congrArg Except.ok hread)

theorem ofHex?_three {r g b : Nat} (hbytes : ∀ n ∈ [r, g, b], n ≤ 255) :
    ofHex? ([r, g, b].flatMap hexChars) = some (ofChannels (α := Rat) (r, g, b) 1 .hex) := by
  rw [ofHex?, mapM_flatMap_hexChars hbytes]
  have hpairs : hexPairs ([r, g, b].flatMap fun n => [n / 16, n % 16]) = some [r, g, b] := by
    simp [hexPairs, Nat.div_add_mod]
  simp only [Option.bind_eq_bind, Option.bind_some, hpairs]

theorem ofHex?_four {r g b a : Nat} (hbytes : ∀ n ∈ [r, g, b, a], n ≤ 255) :
    ofHex? ([r, g, b, a].flatMap hexChars) =
      some (ofChannels (α := Rat) (r, g, b) (Scalar.ofInt a / 255) .hexAlpha) := by
  rw [ofHex?, mapM_flatMap_hexChars hbytes]
  have hpairs : hexPairs ([r, g, b, a].flatMap fun n => [n / 16, n % 16]) = some [r, g, b, a] := by
    simp [hexPairs, Nat.div_add_mod]
  simp only [Option.bind_eq_bind, Option.bind_some, hpairs]

/-! ### Calls -/

/-- A call by its letters, the `a` that may follow them, and what stands in brackets. -/
def callChars (letters mark body : List Char) : List Char :=
  letters ++ (mark ++ '(' :: (body ++ [')']))

section Calls

variable {letters mark body : List Char} {s : String} {c : Color α}

theorem callBody?_callChars (hletters : ∀ rest, afterFolded? letters (letters ++ rest) = some rest)
    (hmark : mark = [] ∨ mark = ['a']) : callBody? letters (callChars letters mark body) = some body := by
  rw [callBody?, callChars, hletters]
  rcases hmark with rfl | rfl
  · have hname : isSpellingOf 'a' '(' = false := by decide
    simp [hname]
  · have hname : isSpellingOf 'a' 'a' = true := by decide
    simp [hname]

theorem isBlank_last_callChars : ∀ d ∈ (callChars letters mark body).getLast?, isBlank d = false := by
  have hlast : (callChars letters mark body).getLast? = some ')' := by
    simp [callChars, List.getLast?_append, List.getLast?_cons]
  intro d hd
  rw [hlast] at hd
  cases hd
  rfl

theorem ofText?_rgbCall (hs : s.toList = callChars ['r', 'g', 'b'] mark body)
    (hmark : mark = [] ∨ mark = ['a']) (hread : ofRgbCall s.toList body = .ok (some c)) :
    ofText? s = some c := by
  refine ofText?_eq hs (fun d hd => by cases hd; rfl) isBlank_last_callChars ?_
  have hbody := @callBody?_callChars ['r', 'g', 'b'] mark body (fun _ => rfl) hmark
  rw [hs] at hread
  unfold ofTrimmed
  rw [hbody]
  exact hread

theorem ofText?_hslCall (hs : s.toList = callChars ['h', 's', 'l'] mark body)
    (hmark : mark = [] ∨ mark = ['a']) (hread : ofHslCall s.toList body = .ok (some c)) :
    ofText? s = some c := by
  refine ofText?_eq hs (fun d hd => by cases hd; rfl) isBlank_last_callChars ?_
  have hother : callBody? ['r', 'g', 'b'] (callChars ['h', 's', 'l'] mark body) = none := rfl
  have hbody := @callBody?_callChars ['h', 's', 'l'] mark body (fun _ => rfl) hmark
  rw [hs] at hread
  unfold ofTrimmed
  rw [hother, hbody]
  exact hread

/-- Opacity is told by the name of a call, by a fourth argument or by a slash. -/
theorem hasAlpha_eq_false {name : String} {text : List Char} {arguments : List (List Char)}
    (hname : ((text.take 4).map Char.toLower == name.toList) = false) (hcount : arguments.length ≤ 3)
    (hslash : '/' ∉ text) : hasAlpha name text arguments = false := by
  simp only [hasAlpha, hname, Bool.false_or, Bool.or_eq_false_iff, decide_eq_false_iff_not, not_lt]
  exact ⟨hcount, by simpa using hslash⟩

end Calls

/-! ### Calls with red, green and blue -/

def bytesChars (r g b : Nat) : List Char :=
  Nat.toDigits 10 r ++ ',' :: ' ' :: (Nat.toDigits 10 g ++ ',' :: ' ' :: Nat.toDigits 10 b)

theorem toList_channelsText (r g b : Nat) : (channelsText (r, g, b)).toList = bytesChars r g b := by
  simp only [channelsText, String.toList_append, toList_toString, bytesChars]
  simp

theorem pieces_toDigits {rest : List Char} (n : Nat) (hrest : ∀ c ∈ rest.head?, isSeparator c = true) :
    pieces isSeparator (Nat.toDigits 10 n ++ rest) = Nat.toDigits 10 n :: pieces isSeparator rest :=
  pieces_append Nat.toDigits_ne_nil
    (fun _ hc => isSeparator_of_isDigit (isDigit_of_mem_toDigits hc)) hrest

theorem pieces_bytesChars {rest : List Char} (r g b : Nat)
    (hrest : ∀ c ∈ rest.head?, isSeparator c = true) :
    pieces isSeparator (bytesChars r g b ++ rest) =
      Nat.toDigits 10 r :: Nat.toDigits 10 g :: Nat.toDigits 10 b :: pieces isSeparator rest := by
  have hcomma (more : List Char) : ∀ c ∈ (',' :: ' ' :: more).head?, isSeparator c = true :=
    forall_mem_head?_cons rfl _
  have hskip (more : List Char) : pieces isSeparator (',' :: ' ' :: more) = pieces isSeparator more := by
    rw [pieces_cons_separator rfl, pieces_cons_separator rfl]
  simp only [bytesChars, List.append_assoc, List.cons_append]
  rw [pieces_toDigits r (hcomma _), hskip, pieces_toDigits g (hcomma _), hskip, pieces_toDigits b hrest]

theorem ofRgbCall_bytesChars {r g b : Nat} {rest : List Char} (text : List Char)
    (hr : channel? (α := α) (Nat.toDigits 10 r) = .ok (some r))
    (hg : channel? (α := α) (Nat.toDigits 10 g) = .ok (some g))
    (hb : channel? (α := α) (Nat.toDigits 10 b) = .ok (some b))
    (hrest : ∀ c ∈ rest.head?, isSeparator c = true) :
    ofRgbCall (α := α) text (bytesChars r g b ++ rest) =
      .ok (some (ofChannels (r, g, b) (opacity (pieces isSeparator rest).head?)
        (if hasAlpha "rgba" text (pieces isSeparator (bytesChars r g b ++ rest)) then .rgba
          else .rgb))) := by
  rw [ofRgbCall, pieces_bytesChars r g b hrest]
  simp only [hr, hg, hb]
  rfl

theorem slash_notMem_bytesChars (r g b : Nat) : '/' ∉ bytesChars r g b := by
  have hdigits (n : Nat) : '/' ∉ Nat.toDigits 10 n := fun hmem =>
    ne_of_isDigit (isDigit_of_mem_toDigits hmem) rfl rfl
  simp [bytesChars, hdigits]

/-- A call without opacity. -/
theorem ofText?_rgb {r g b : Nat} (hr : channel? (α := α) (Nat.toDigits 10 r) = .ok (some r))
    (hg : channel? (α := α) (Nat.toDigits 10 g) = .ok (some g))
    (hb : channel? (α := α) (Nat.toDigits 10 b) = .ok (some b)) :
    ofText? (rgbText (r, g, b)) = some (ofChannels (α := α) (r, g, b) 1 .rgb) := by
  have hs : (rgbText (r, g, b)).toList = callChars ['r', 'g', 'b'] [] (bytesChars r g b ++ []) := by
    rw [rgbText, String.toList_append, String.toList_append, toList_channelsText, List.append_nil]
    rfl
  have halpha : hasAlpha "rgba" (rgbText (r, g, b)).toList
      (pieces isSeparator (bytesChars r g b ++ [])) = false := by
    refine hasAlpha_eq_false ?_ ?_ ?_
    · rw [hs]
      rfl
    · rw [pieces_bytesChars r g b (by simp)]
      exact le_refl 3
    · rw [hs]
      simp [callChars, slash_notMem_bytesChars]
  refine ofText?_rgbCall hs (.inl rfl) ?_
  rw [ofRgbCall_bytesChars _ hr hg hb (by simp), halpha]
  rfl

/-- A call with opacity. -/
theorem ofText?_rgba {r g b : Nat} {alpha : String}
    (hr : channel? (α := α) (Nat.toDigits 10 r) = .ok (some r))
    (hg : channel? (α := α) (Nat.toDigits 10 g) = .ok (some g))
    (hb : channel? (α := α) (Nat.toDigits 10 b) = .ok (some b)) (hne : alpha.toList ≠ [])
    (hword : ∀ c ∈ alpha.toList, isSeparator c = false) :
    ofText? (rgbaText (r, g, b) alpha) =
      some (ofChannels (α := α) (r, g, b) (opacity (some alpha.toList)) .rgba) := by
  have hs : (rgbaText (r, g, b) alpha).toList =
      callChars ['r', 'g', 'b'] ['a'] (bytesChars r g b ++ (',' :: ' ' :: (alpha.toList ++ []))) := by
    rw [rgbaText, String.toList_append, String.toList_append, String.toList_append,
      String.toList_append, toList_channelsText, List.append_nil]
    simp [callChars]
  have hpieces : pieces isSeparator (',' :: ' ' :: (alpha.toList ++ [])) = [alpha.toList] := by
    rw [pieces_cons_separator rfl, pieces_cons_separator rfl, pieces_append hne hword (by simp)]
    rfl
  have hnamed (arguments : List (List Char)) :
      hasAlpha "rgba" (rgbaText (r, g, b) alpha).toList arguments = true := by
    rw [hs]
    rfl
  refine ofText?_rgbCall hs (.inr rfl) ?_
  rw [ofRgbCall_bytesChars _ hr hg hb (forall_mem_head?_cons rfl _), hnamed, hpieces]
  rfl

/-! ### Hue, saturation and lightness -/

def componentsChars (h s l : List Char) : List Char :=
  h ++ ' ' :: (s ++ '%' :: ' ' :: (l ++ ['%']))

/-- Texts of three components, which stand for three whole channels when they are read. -/
structure Spells (h s l : List Char) (x : Hsl Rat) (rgb : Int × Int × Int) : Prop where
  hue : Denotes h x.hue
  saturation : Denotes s x.saturation
  lightness : Denotes l x.lightness
  channels : x.clamped.channels = .ok rgb

section Components

variable {h s l rest : List Char} {x : Hsl Rat} {rgb : Int × Int × Int}

theorem pieces_percent {cs : List Char} {q : Rat} (hcs : Denotes cs q)
    (hrest : ∀ c ∈ rest.head?, isSeparator c = true) :
    pieces isSeparator (cs ++ '%' :: rest) = (cs ++ ['%']) :: pieces isSeparator rest := by
  have hword : ∀ c ∈ cs ++ ['%'], isSeparator c = false := by
    intro c hc
    rcases List.mem_append.mp hc with hc | hc
    · exact hcs.isSeparator_eq c hc
    · rw [List.mem_singleton.mp hc]
      rfl
  rw [← pieces_append (by simp) hword hrest, List.append_assoc]
  rfl

theorem pieces_componentsChars (hx : Spells h s l x rgb)
    (hrest : ∀ c ∈ rest.head?, isSeparator c = true) :
    pieces isSeparator (componentsChars h s l ++ rest) =
      h :: (s ++ ['%']) :: (l ++ ['%']) :: pieces isSeparator rest := by
  have hblank (more : List Char) : ∀ c ∈ (' ' :: more).head?, isSeparator c = true :=
    forall_mem_head?_cons rfl _
  simp only [componentsChars, List.append_assoc, List.cons_append, List.nil_append]
  rw [pieces_append hx.hue.ne_nil hx.hue.isSeparator_eq (hblank _), pieces_cons_separator rfl,
    pieces_percent hx.saturation (hblank _), pieces_cons_separator rfl,
    pieces_percent hx.lightness hrest]

theorem ofHsl_spells (hx : Spells h s l x rgb) (alpha : Rat) (written : Format) :
    ofHsl x alpha written = .ok (ofChannels rgb alpha written) := by
  rw [ofHsl, hx.channels]
  rfl

theorem ofHslCall_componentsChars (text : List Char) (hx : Spells h s l x rgb)
    (hrest : ∀ c ∈ rest.head?, isSeparator c = true) :
    ofHslCall (α := Rat) text (componentsChars h s l ++ rest) =
      .ok (some (ofChannels rgb (opacity (pieces isSeparator rest).head?)
        (if hasAlpha "hsla" text (pieces isSeparator (componentsChars h s l ++ rest)) then .hsla
          else .hsl))) := by
  have hhue : (leadingNumber? h : Option Rat) = some x.hue := by
    have hread := @Denotes.leadingNumber? h [] x.hue hx.hue endsNumber_nil
    rwa [List.append_nil] at hread
  -- The sign of a percentage is left to what follows the number.
  have hpercent : EndsNumber ['%'] := endsNumber_cons (by decide)
  have hsaturation := hx.saturation.leadingNumber? hpercent
  have hlightness := hx.lightness.leadingNumber? hpercent
  rw [ofHslCall, pieces_componentsChars hx hrest]
  simp only [hhue, hsaturation, hlightness, ofHsl_spells hx]
  rfl

theorem slash_notMem_componentsChars (hx : Spells h s l x rgb) : '/' ∉ componentsChars h s l := by
  have hpart {cs : List Char} {q : Rat} (hcs : Denotes cs q) : '/' ∉ cs := by
    intro hmem
    rcases hcs.mem hmem with hdigit | hpoint
    · exact ne_of_isDigit hdigit rfl rfl
    · exact absurd hpoint (by decide)
  simp [componentsChars, hpart hx.hue, hpart hx.saturation, hpart hx.lightness]

/-- A call without opacity. -/
theorem ofText?_hsl {text : String} (hx : Spells h s l x rgb)
    (htext : text.toList = callChars ['h', 's', 'l'] [] (componentsChars h s l ++ [])) :
    ofText? text = some (ofChannels (α := Rat) rgb 1 .hsl) := by
  have halpha : hasAlpha "hsla" text.toList
      (pieces isSeparator (componentsChars h s l ++ [])) = false := by
    refine hasAlpha_eq_false ?_ ?_ ?_
    · rw [htext]
      rfl
    · rw [pieces_componentsChars hx (by simp)]
      exact le_refl 3
    · rw [htext]
      simp [callChars, slash_notMem_componentsChars hx]
  refine ofText?_hslCall htext (.inl rfl) ?_
  rw [ofHslCall_componentsChars _ hx (by simp), halpha]
  rfl

/-- A call with opacity. -/
theorem ofText?_hsla {text : String} {alpha : List Char} {q : Rat} (hx : Spells h s l x rgb)
    (halpha : Denotes alpha q) (hq : 0 ≤ q ∧ q ≤ 1)
    (htext : text.toList = callChars ['h', 's', 'l'] ['a']
      (componentsChars h s l ++ (' ' :: '/' :: ' ' :: (alpha ++ [])))) :
    ofText? text = some (ofChannels rgb q .hsla) := by
  have hpieces : pieces isSeparator (' ' :: '/' :: ' ' :: (alpha ++ [])) = [alpha] := by
    rw [pieces_cons_separator rfl, pieces_cons_separator rfl, pieces_cons_separator rfl,
      pieces_append halpha.ne_nil halpha.isSeparator_eq (by simp)]
    rfl
  have hnamed (arguments : List (List Char)) : hasAlpha "hsla" text.toList arguments = true := by
    rw [htext]
    rfl
  refine ofText?_hslCall htext (.inr rfl) ?_
  rw [ofHslCall_componentsChars _ hx (forall_mem_head?_cons rfl _), hnamed, hpieces,
    List.head?_cons, halpha.opacity_eq hq]
  rfl

/-! ### Compact triples -/

theorem callBody?_of_isDigit {letter c : Char} {letters cs : List Char} (hc : c.isDigit = true)
    (hletter : letter = 'r' ∨ letter = 'h') : callBody? (letter :: letters) (c :: cs) = none := by
  have hlower := toLower_of_isDigit hc
  have hspelling : isSpellingOf letter c = false := by
    rcases hletter with rfl | rfl
    · have hne : c ≠ 'r' := ne_of_isDigit hc rfl
      simp [isSpellingOf, hlower, hne]
    · have hne : c ≠ 'h' := ne_of_isDigit hc rfl
      simp [isSpellingOf, hlower, hne]
  simp [callBody?, afterFolded?, hspelling]

theorem ofTrimmed_of_isDigit {cs : List Char} (hcs : ∀ c ∈ cs.head?, c.isDigit = true) :
    ofTrimmed (α := Rat) cs = ofCompact cs := by
  cases cs with
  | nil => rfl
  | cons c cs =>
    have hc : c.isDigit = true := hcs c rfl
    unfold ofTrimmed
    split
    · rename_i heq
      cases heq
      cases hc
    · rw [callBody?_of_isDigit hc (.inl rfl), callBody?_of_isDigit hc (.inr rfl)]

theorem exists_percentage? {cs : List Char} {q : Rat} (hcs : Denotes cs q) (more : List Char) :
    ∃ d, CompactTriple.percentage? (' ' :: (cs ++ '%' :: more)) = some (d, more) ∧ d.toRat = q := by
  obtain ⟨d, hd, hq⟩ := @Denotes.plain? cs ('%' :: more) q hcs (endsNumber_cons (by decide))
  have hhead : ∀ c ∈ (cs ++ '%' :: more).head?, isBlank c = false := by
    intro c hc
    refine isBlank_of_isDigit (hcs.isDigit_head c ?_)
    rwa [List.head?_append_of_ne_nil _ hcs.ne_nil] at hc
  have hblank : ∀ c ∈ [' '], isBlank c = true := by
    intro c hc
    rw [List.mem_singleton.mp hc]
    rfl
  have hgap : CompactTriple.gap? ([' '] ++ (cs ++ '%' :: more)) = some (cs ++ '%' :: more) := by
    rw [CompactTriple.gap?, run?_append (by simp) hblank hhead]
    rfl
  rw [List.cons_append, List.nil_append] at hgap
  refine ⟨d, ?_, hq⟩
  rw [CompactTriple.percentage?, hgap]
  simp only [Option.bind_eq_bind, Option.bind_some, hd]

/-- A triple is read together with the opacity that may follow it. -/
theorem exists_read? {part : Option (List Char)} (hx : Spells h s l x rgb)
    (hpart : CompactTriple.slashed? rest = part.map (·, [])) (hrest : part = none → rest = []) :
    ∃ hue saturation lightness : Decimal,
      (⟨hue.toRat, saturation.toRat, lightness.toRat⟩ : Hsl Rat) = x ∧
      CompactTriple.read? (componentsChars h s l ++ rest) =
        some (⟨hue, saturation, lightness, part⟩, []) := by
  obtain ⟨lightness, hlightness, hl⟩ := exists_percentage? hx.lightness rest
  obtain ⟨saturation, hsaturation, hs⟩ := exists_percentage? hx.saturation (' ' :: (l ++ '%' :: rest))
  obtain ⟨hue, hhue, hh⟩ := @Denotes.plain? h (' ' :: (s ++ '%' :: ' ' :: (l ++ '%' :: rest)))
    x.hue hx.hue (endsNumber_cons (by decide))
  refine ⟨hue, saturation, lightness, by rw [hh, hs, hl], ?_⟩
  simp only [componentsChars, List.append_assoc, List.cons_append, List.nil_append]
  simp only [CompactTriple.read?, Option.bind_eq_bind, Option.bind_some, hhue, hsaturation, hlightness,
    hpart]
  cases part with
  | none => rw [hrest rfl]; rfl
  | some alpha => rfl

/-- A triple that is the whole text, alone or before its opacity. -/
theorem ofText?_components {text : String} {part : Option (List Char)} (hx : Spells h s l x rgb)
    (htext : text.toList = componentsChars h s l ++ rest)
    (hpart : CompactTriple.slashed? rest = part.map (·, [])) (hrest : part = none → rest = [])
    (hlast : ∀ c ∈ rest.getLast?, isBlank c = false) :
    ofText? text = some (ofChannels (α := Rat) rgb (opacity part) .compact) := by
  obtain ⟨hue, saturation, lightness, rfl, hread⟩ := exists_read? hx hpart hrest
  have hhead : ∀ c ∈ (componentsChars h s l ++ rest).head?, c.isDigit = true := by
    intro c hc
    refine hx.hue.isDigit_head c ?_
    rwa [componentsChars, List.append_assoc, List.head?_append_of_ne_nil _ hx.hue.ne_nil] at hc
  have hpercent : (componentsChars h s l).getLast? = some '%' := by
    simp [componentsChars, List.getLast?_append, List.getLast?_cons]
  refine ofText?_eq htext (fun c hc => isBlank_of_isDigit (hhead c hc)) ?_ ?_
  · intro c hc
    rw [List.getLast?_append, hpercent] at hc
    cases hend : rest.getLast? with
    | none =>
      rw [hend] at hc
      cases hc
      rfl
    | some d =>
      rw [hend] at hc
      cases hc
      exact hlast c hend
  · rw [ofTrimmed_of_isDigit hhead, ofCompact, hread]
    exact congrArg (some <$> ·) (ofHsl_spells hx (opacity part) .compact)

theorem alpha?_pointed : ∀ u : Fin 101,
    CompactTriple.alpha? (Extended.pointed 2 u) = some (Extended.pointed 2 u, []) := by
  decide +kernel

theorem slashed?_pointed {u : Nat} (hu : u ≤ 100) :
    CompactTriple.slashed? (' ' :: '/' :: ' ' :: Extended.pointed 2 u) =
      some (Extended.pointed 2 u, []) := by
  have halpha := alpha?_pointed ⟨u, Nat.lt_succ_of_le hu⟩
  have hdenotes := @Extended.denotes_pointed 2 u (by omega)
  have hstart : trimStart (' ' :: Extended.pointed 2 u) = Extended.pointed 2 u :=
    trimStart_eq_self fun c hc => isBlank_of_isDigit (hdenotes.isDigit_head c hc)
  have hslash : trimStart (' ' :: '/' :: ' ' :: Extended.pointed 2 u) =
      '/' :: ' ' :: Extended.pointed 2 u := rfl
  rw [CompactTriple.slashed?, hslash]
  simp only [hstart]
  exact halpha

end Components

end Color

end Swatch
