import Swatch.Proofs.Color.Form
import Swatch.Proofs.Color.Range

/-!
The formats that a colour is offered in. Whatever text a colour was read from, over doubles, it is
written without an error in every format that can express it, and no two of these texts are the same,
whatever the case of their letters: each format begins in a way of its own. So nothing is left out of
the list of conversions, and what it falls back to is never needed.

Main statement: `Color.conversions_of_ofText?`.
-/

namespace Swatch

open Binary64 Text

/-! ### How numbers begin -/

/-- A text that begins as a number does: with a digit or with a sign. -/
def BeginsNumber (cs : List Char) : Prop :=
  ∃ c rest, cs = c :: rest ∧ (c.isDigit = true ∨ c = '-')

theorem BeginsNumber.append {cs : List Char} (h : BeginsNumber cs) (more : List Char) :
    BeginsNumber (cs ++ more) := by
  obtain ⟨c, rest, rfl, hc⟩ := h
  exact ⟨c, rest ++ more, rfl, hc⟩

theorem isNumeral_dropFractionZeros (places units : Nat) :
    IsNumeral (Extended.dropFractionZeros (Extended.pointed places units)) := by
  have hlength := Extended.le_length_digitsPadded (places + 1) units
  have hnumeral := Extended.pointed_eq_numeral places units
  have hdigits : ∀ c ∈ Extended.digitsPadded (places + 1) units, c.isDigit = true :=
    fun c hc => Extended.isDigit_of_mem_digitsPadded hc
  dsimp only at hnumeral
  generalize Extended.digitsPadded (places + 1) units = digits at hlength hnumeral hdigits
  rw [hnumeral, Extended.dropFractionZeros_numeral]
  · refine ⟨_, _, rfl, ?_, fun c hc => ?_⟩
    · rw [ne_eq, List.take_eq_nil_iff]
      rintro (hnone | rfl)
      · omega
      · exact absurd hlength (Nat.not_succ_le_zero _)
    · rcases List.mem_append.mp hc with hwhole | hfraction
      · exact hdigits c (List.mem_of_mem_take hwhole)
      · exact hdigits c (List.mem_of_mem_drop ((List.rdropWhile_prefix _ _).subset hfraction))
  · intro c hc
    rw [List.take_append_drop] at hc
    exact hdigits c hc

theorem IsNumeral.beginsNumber {cs : List Char} (h : IsNumeral cs) : BeginsNumber cs := by
  obtain ⟨c, rest, rfl, hc⟩ := h.exists_head
  exact ⟨c, rest, rfl, .inl hc⟩

theorem beginsNumber_general (negative : Bool) (magnitude : Rat) :
    BeginsNumber (Extended.finite negative magnitude).general.toList := by
  rw [Extended.general, Extended.render, Extended.signed, String.toList_ofList]
  cases negative with
  | true => exact ⟨'-', _, rfl, .inr rfl⟩
  | false =>
    rw [if_neg Bool.false_ne_true]
    split
    · exact ⟨'0', [], rfl, .inl rfl⟩
    · have hshape (units : Nat) (exponent : Int) : BeginsNumber
          (if -4 ≤ exponent && exponent < 6 then
            Extended.dropFractionZeros (Extended.pointed (5 - exponent).toNat units)
          else Extended.dropFractionZeros (Extended.pointed 5 units) ++ Extended.exponentText exponent) := by
        split
        · exact (isNumeral_dropFractionZeros _ _).beginsNumber
        · exact (isNumeral_dropFractionZeros _ _).beginsNumber.append _
      exact hshape _ _

theorem beginsNumber_toString (n : Int) : BeginsNumber (toString n).toList := by
  cases n with
  | ofNat n =>
    rw [Int.ofNat_eq_natCast, toList_toString]
    obtain ⟨c, rest, hdigits⟩ := List.exists_cons_of_ne_nil (@Nat.toDigits_ne_nil n 10)
    refine ⟨c, rest, hdigits, .inl (isDigit_of_mem_toDigits (n := n) ?_)⟩
    rw [hdigits]
    exact List.mem_cons_self
  | negSucc n =>
    have htext : (toString (Int.negSucc n)).toList = '-' :: (Nat.repr (n + 1)).toList := by
      change ("-" ++ Nat.repr (n + 1)).toList = _
      rw [String.toList_append]
      rfl
    exact ⟨'-', _, htext, .inr rfl⟩

theorem exists_text {x : Float} (hx : Below 1024 x) :
    ∃ s, Scalar.text x = .ok s ∧ BeginsNumber s.toList := by
  obtain ⟨a, ha⟩ := hx.hasValue
  obtain ⟨n, hn, -⟩ := @truncate_of_below 1024 x hx
  have hexact : (Scalar.exact x : Extended) = .finite (fields x).negative |a| := ha.exact_eq.1
  rw [Scalar.text, hn, hexact]
  change ∃ s, Except.ok (if x == Scalar.ofInt n then toString n
    else (Extended.finite (fields x).negative |a|).general) = Except.ok s ∧ _
  refine ⟨_, rfl, ?_⟩
  split
  · exact beginsNumber_toString n
  · exact beginsNumber_general _ _

/-! ### How texts begin -/

namespace Format

/-- How a text in a format begins. The digits of the channels tell the hexadecimal ones apart. -/
def Begins (digits : List Char) (f : Format) (text : List Char) : Prop :=
  match f with
  | hex => text = '#' :: digits
  | hexAlpha => ∃ more, text = '#' :: (digits ++ more) ∧ more ≠ []
  | rgb => ∃ rest, text = 'r' :: 'g' :: 'b' :: '(' :: rest
  | rgba => ∃ rest, text = 'r' :: 'g' :: 'b' :: 'a' :: rest
  | hsl => ∃ rest, text = 'h' :: 's' :: 'l' :: '(' :: rest
  | hsla => ∃ rest, text = 'h' :: 's' :: 'l' :: 'a' :: rest
  | compact => BeginsNumber text

/-- The format that a text in small letters is in, by its beginning. -/
def ofBeginning (count : Nat) (text : List Char) : Format :=
  match text with
  | '#' :: digits => if digits.length = count then hex else hexAlpha
  | 'r' :: _ :: _ :: c :: _ => if c = '(' then rgb else rgba
  | 'h' :: _ :: _ :: c :: _ => if c = '(' then hsl else hsla
  | _ => compact

theorem Begins.ofBeginning_eq {digits text : List Char} {f : Format} (h : Begins digits f text) :
    ofBeginning digits.length (text.map Char.toLower) = f := by
  cases f with
  | hex =>
    rw [(h : text = '#' :: digits)]
    exact if_pos (List.length_map _)
  | hexAlpha =>
    obtain ⟨more, rfl, hmore⟩ := h
    have hlength : ((digits ++ more).map Char.toLower).length ≠ digits.length := by
      have hpos := List.length_pos_iff.mpr hmore
      rw [List.length_map, List.length_append]
      omega
    exact if_neg hlength
  | rgb =>
    obtain ⟨rest, rfl⟩ := h
    rfl
  | rgba =>
    obtain ⟨rest, rfl⟩ := h
    rfl
  | hsl =>
    obtain ⟨rest, rfl⟩ := h
    rfl
  | hsla =>
    obtain ⟨rest, rfl⟩ := h
    rfl
  | compact =>
    obtain ⟨c, rest, rfl, hc⟩ := h
    have hsame : c.toLower = c := by
      rcases hc with hdigit | rfl
      · exact toLower_of_isDigit hdigit
      · rfl
    have hne {d : Char} (hd : d.isDigit = false) (hsign : d ≠ '-') : c ≠ d := by
      rcases hc with hdigit | rfl
      · exact ne_of_isDigit hdigit hd
      · exact hsign.symm
    rw [List.map_cons, hsame]
    unfold ofBeginning
    split
    · rename_i heq
      exact absurd (List.cons.inj heq).1 (hne rfl (by decide))
    · rename_i heq
      exact absurd (List.cons.inj heq).1 (hne rfl (by decide))
    · rename_i heq
      exact absurd (List.cons.inj heq).1 (hne rfl (by decide))
    · rfl

/-- Texts in different formats are different in whatever case. -/
theorem Begins.map_toLower_ne {digits text text' : List Char} {f g : Format} (h : Begins digits f text)
    (h' : Begins digits g text') (hne : f ≠ g) : text.map Char.toLower ≠ text'.map Char.toLower := by
  intro heq
  refine hne ?_
  rw [← h.ofBeginning_eq, ← h'.ofBeginning_eq, heq]

end Format

namespace Color

/-! ### Writing -/

theorem exists_componentText {x : Float} (hx : Below 17 x) :
    ∃ s, componentText x = .ok s ∧ BeginsNumber s.toList := by
  obtain ⟨y, hy, hbelow⟩ := @Scalar.below_nearestHundredth 17 x hx (by decide)
  obtain ⟨s, hs, hbegins⟩ := exists_text hbelow
  refine ⟨s, ?_, hbegins⟩
  rw [componentText, hy]
  exact hs

def hexSpelling (r g b : Nat) : List Char :=
  (hexByte r).toList ++ (hexByte g).toList ++ (hexByte b).toList

theorem hexByte_ne_nil (n : Int) : (hexByte n).toList ≠ [] := by
  have hdigits : Nat.toDigits 16 n.natAbs ≠ [] := Nat.toDigits_ne_nil
  simp [hexByte, hdigits]

section Writing

variable {c : Color Float} {r g b : Nat}

theorem HasChannels.hex_eq (hc : HasChannels IsOpacity c r g b) :
    ∃ s, c.hex false = .ok s ∧ Format.hex.Begins (hexSpelling r g b) s.toList := by
  refine ⟨"#" ++ hexByte r ++ hexByte g ++ hexByte b, ?_, ?_⟩
  · rw [hex, hc.channels_eq]
    rfl
  · simp [Format.Begins, hexSpelling]

theorem HasChannels.hexAlpha_eq (hc : HasChannels IsOpacity c r g b) :
    ∃ s, c.hex true = .ok s ∧ Format.hexAlpha.Begins (hexSpelling r g b) s.toList := by
  obtain ⟨a, ha, hlow, hhigh⟩ := hc.alpha
  have hbound := @HasValue.below c.alpha a ha 1 (abs_le.mpr ⟨by norm_num; linarith, by norm_num; linarith⟩)
  obtain ⟨n, hn, -⟩ := Hsl.nearest_mul_255 (hbound.mono (by decide))
  refine ⟨"#" ++ hexByte r ++ hexByte g ++ hexByte b ++ hexByte n, ?_, (hexByte n).toList, ?_, ?_⟩
  · rw [hex, hc.channels_eq]
    change (do
      let n ← Scalar.nearest (c.alpha * 255)
      return "#" ++ hexByte r ++ hexByte g ++ hexByte b ++ hexByte n) = _
    rw [hn]
    rfl
  · simp [hexSpelling]
  · exact hexByte_ne_nil n

/-- A full opacity stays full when it is rounded to hundredths. -/
theorem nearestHundredth_full {x : Float} (hx : IsOpacity x) (hfull : (x == 1) = true) :
    ∃ y : Float, Scalar.nearestHundredth x = .ok y ∧ (y == 1) = true := by
  obtain ⟨a, ha, -⟩ := hx
  have hone : a = 1 := by
    rwa [ha.beq_eq (hasValue_ofNat (by decide) : HasValue 1 1), decide_eq_true_iff] at hfull
  subst hone
  obtain ⟨d, hd, hnear⟩ := ha.mul (hasValue_ofNat (by decide) : HasValue 100 100) (by norm_num)
  have hstep := step_le
  obtain ⟨hlow, hhigh⟩ := abs_le.mp hnear
  have hround : Scalar.nearest (x * 100) = .ok 100 :=
    nearest_eq hd (abs_le.mpr ⟨by linarith, by linarith⟩)
      (abs_le.mpr ⟨by push_cast; linarith, by push_cast; linarith⟩)
  refine ⟨Binary64.nearest (Decimal.hundredths 100), ?_, by decide +kernel⟩
  rw [Scalar.nearestHundredth, hround]
  rfl

theorem HasChannels.rgb_eq (hc : HasChannels IsOpacity c r g b) (hfull : (c.alpha == 1) = true) :
    ∃ s, c.rgb false = .ok s ∧ Format.rgb.Begins (hexSpelling r g b) s.toList := by
  obtain ⟨alpha, halpha, hone⟩ := nearestHundredth_full hc.alpha hfull
  refine ⟨rgbText (r, g, b), ?_, (channelsText (r, g, b) ++ ")").toList, by simp [rgbText]⟩
  rw [rgb, hc.channels_eq, halpha]
  change (if (!false && alpha == 1) = true then return rgbText (r, g, b)
    else return rgbaText (r, g, b) (← Scalar.text alpha)) = _
  rw [hone]
  rfl

theorem HasChannels.rgba_eq (hc : HasChannels IsOpacity c r g b) :
    ∃ s, c.rgb true = .ok s ∧ Format.rgba.Begins (hexSpelling r g b) s.toList := by
  obtain ⟨a, ha, hlow, hhigh⟩ := hc.alpha
  have hbound := @HasValue.below c.alpha a ha 1 (abs_le.mpr ⟨by norm_num; linarith, by norm_num; linarith⟩)
  obtain ⟨alpha, halpha, hbelow⟩ := @Scalar.below_nearestHundredth 2 c.alpha hbound (by decide)
  obtain ⟨s, hs, -⟩ := exists_text hbelow
  refine ⟨rgbaText (r, g, b) s, ?_, ?_⟩
  · rw [rgb, hc.channels_eq, halpha]
    change (do return rgbaText (r, g, b) (← Scalar.text alpha)) = _
    rw [hs]
    rfl
  · exact ⟨'(' :: ((channelsText (r, g, b) ++ ", " ++ s ++ ")").toList), by simp [rgbaText]⟩

theorem HasChannels.triple_eq (hc : HasChannels IsOpacity c r g b) :
    ∃ s, c.triple = .ok s ∧ BeginsNumber s.toList := by
  obtain ⟨x, hx, hhue, hsaturation, hlightness⟩ := Hsl.exists_ofRgb hc.red hc.green hc.blue
  obtain ⟨h, hh, hbegins⟩ := exists_componentText hhue
  obtain ⟨s, hs, -⟩ := exists_componentText hsaturation
  obtain ⟨l, hl, -⟩ := exists_componentText hlightness
  have hparts : Hsl.ofRgb (c.red * 255) (c.green * 255) (c.blue * 255) = .ok x := by
    rw [hc.eq]
    exact hx
  refine ⟨h ++ " " ++ s ++ "% " ++ l ++ "%", triple_eq_ok hparts hh hs hl, ?_⟩
  simp only [String.toList_append, List.append_assoc]
  exact hbegins.append _

theorem HasChannels.hsl_eq (hc : HasChannels IsOpacity c r g b) (hfull : (c.alpha == 1) = true) :
    ∃ s, c.hsl false = .ok s ∧ Format.hsl.Begins (hexSpelling r g b) s.toList := by
  obtain ⟨base, hbase, -⟩ := hc.triple_eq
  refine ⟨"hsl(" ++ base ++ ")", ?_, base.toList ++ [')'], ?_⟩
  · rw [hsl, hbase, hfull]
    rfl
  · simp

theorem HasChannels.hsla_eq (hc : HasChannels IsOpacity c r g b) :
    ∃ s, c.hsl true = .ok s ∧ Format.hsla.Begins (hexSpelling r g b) s.toList := by
  obtain ⟨base, hbase, -⟩ := hc.triple_eq
  refine ⟨"hsla(" ++ base ++ " / " ++ c.alphaText ++ ")", ?_,
    '(' :: (base ++ " / " ++ c.alphaText ++ ")").toList, ?_⟩
  · rw [hsl, hbase]
    rfl
  · simp

theorem HasChannels.compact_eq (hc : HasChannels IsOpacity c r g b) :
    ∃ s, c.compact = .ok s ∧ Format.compact.Begins (hexSpelling r g b) s.toList := by
  obtain ⟨base, hbase, hbegins⟩ := hc.triple_eq
  rw [compact, hbase]
  change ∃ s, (if (c.alpha == 1) = true then return base else return base ++ " / " ++ c.alphaText) =
    Except.ok s ∧ _
  split
  · exact ⟨base, rfl, hbegins⟩
  · refine ⟨_, rfl, ?_⟩
    simp only [String.toList_append, List.append_assoc]
    exact hbegins.append _

/-- A format that can express a colour does so without an error. -/
theorem HasChannels.exists_write? (hc : HasChannels IsOpacity c r g b) {f : Format}
    (hf : f.isOpaqueOnly = true → (c.alpha == 1) = true) :
    ∃ s, c.write? f = .ok (some s) ∧ f.Begins (hexSpelling r g b) s.toList := by
  have hguard : ¬(f.isOpaqueOnly && !(c.alpha == 1)) = true := by
    rw [Bool.and_eq_true]
    rintro ⟨honly, htranslucent⟩
    rw [hf honly] at htranslucent
    exact absurd htranslucent (by decide)
  have hwritten {text : Except ArithmeticError String}
      (htext : ∃ s, text = .ok s ∧ f.Begins (hexSpelling r g b) s.toList) :
      ∃ s, some <$> text = .ok (some s) ∧ f.Begins (hexSpelling r g b) s.toList := by
    obtain ⟨s, rfl, hs⟩ := htext
    exact ⟨s, rfl, hs⟩
  unfold write?
  rw [if_neg hguard]
  cases f with
  | hex => exact hwritten hc.hex_eq
  | hexAlpha => exact hwritten hc.hexAlpha_eq
  | rgb => exact hwritten (hc.rgb_eq (hf rfl))
  | rgba => exact hwritten hc.rgba_eq
  | hsl => exact hwritten (hc.hsl_eq (hf rfl))
  | hsla => exact hwritten hc.hsla_eq
  | compact => exact hwritten hc.compact_eq

/-- A colour is written in a format, or the format is one for opaque colours and the colour is not. -/
theorem HasChannels.write?_cases (hc : HasChannels IsOpacity c r g b) (f : Format) :
    ∃ s?, c.write? f = .ok s? ∧ (s?.isSome = (!f.isOpaqueOnly || c.alpha == 1)) ∧
      ∀ s, s? = some s → f.Begins (hexSpelling r g b) s.toList := by
  by_cases hf : f.isOpaqueOnly = true → (c.alpha == 1) = true
  · obtain ⟨s, hs, hbegins⟩ := hc.exists_write? hf
    refine ⟨some s, hs, ?_, fun t ht => by cases ht; exact hbegins⟩
    cases honly : f.isOpaqueOnly with
    | false => rfl
    | true => rw [hf honly]; rfl
  · obtain ⟨honly, htranslucent⟩ := Classical.not_imp.mp hf
    refine ⟨none, ?_, ?_, fun t ht => by cases ht⟩
    · unfold write?
      rw [honly, eq_false_of_ne_true htranslucent]
      rfl
    · rw [honly, eq_false_of_ne_true htranslucent]
      rfl

end Writing

/-! ### The list of conversions -/

theorem addConversion_eq {found : List Conversion} {conversion : Conversion}
    (hfresh : ∀ earlier ∈ found,
      earlier.text.toList.map Char.toLower ≠ conversion.text.toList.map Char.toLower) :
    addConversion found conversion = found ++ [conversion] := by
  refine if_neg fun hany => ?_
  obtain ⟨earlier, hmem, hkey⟩ := List.any_eq_true.mp hany
  exact hfresh earlier hmem (beq_iff_eq.mp hkey)

section Loop

variable {c : Color Float} {text? : Format → Option String}

/-- What the formats of a list can express, in its order. -/
def expressed (text? : Format → Option String) (formats : List Format) : List Conversion :=
  formats.filterMap fun f => (text? f).map (Conversion.mk f)

theorem mem_expressed {formats : List Format} {x : Conversion} :
    x ∈ expressed text? formats ↔ x.format ∈ formats ∧ text? x.format = some x.text := by
  simp only [expressed, List.mem_filterMap, Option.map_eq_some_iff]
  constructor
  · rintro ⟨f, hf, s, hs, rfl⟩
    exact ⟨hf, hs⟩
  · rintro ⟨hf, hs⟩
    exact ⟨x.format, hf, x.text, hs, rfl⟩

theorem map_format_expressed (formats : List Format) :
    (expressed text? formats).map Conversion.format = formats.filter fun f => (text? f).isSome := by
  induction formats with
  | nil => rfl
  | cons f formats ih =>
    cases hf : text? f with
    | none => simpa [expressed, hf] using ih
    | some s => simpa [expressed, hf] using ih

section Formats

variable {full : Bool} (hsome : ∀ f, (text? f).isSome = (!f.isOpaqueOnly || full)) (first : Format)

include hsome

theorem map_format_expressed_priority :
    (expressed text? first.priority).map Conversion.format =
      if full then first.priority
      else first.priority.filter (· ∈ [Format.hexAlpha, .rgba, .hsla, .compact]) := by
  rw [map_format_expressed]
  simp only [hsome]
  cases full with
  | true => simp
  | false =>
    rw [if_neg Bool.false_ne_true]
    refine List.filter_congr fun f _ => ?_
    cases f <;> rfl

theorem length_expressed_priority :
    (expressed text? first.priority).length = if full then 7 else 4 := by
  rw [← List.length_map Conversion.format, map_format_expressed_priority hsome]
  cases full <;> cases first <;> rfl

/-- The format whose priority it is comes first if it can express the colour. -/
theorem head?_expressed_priority (hfirst : (text? first).isSome = true) :
    ((expressed text? first.priority).map Conversion.format).head? = some first := by
  rw [map_format_expressed_priority hsome]
  rw [hsome] at hfirst
  cases full with
  | true => rfl
  | false => cases first <;> first | rfl | cases hfirst

end Formats

/-- No text is left out as long as the texts in different formats are different. -/
theorem foldlM_write? (hwrite : ∀ f, c.write? f = .ok (text? f))
    (hapart : ∀ f g s t, text? f = some s → text? g = some t → f ≠ g →
      s.toList.map Char.toLower ≠ t.toList.map Char.toLower) (formats : List Format) :
    ∀ found : List Conversion, (found.map Conversion.format ++ formats).Nodup →
      (∀ x ∈ found, text? x.format = some x.text) →
      formats.foldlM (fun found format => do
        match ← c.write? format with
        | some text => return addConversion found ⟨format, text⟩
        | none => return found) found = .ok (found ++ expressed text? formats) := by
  -- The invariant is that the conversions found are those of formats that have been passed.
  induction formats with
  | nil =>
    intro found _ _
    rw [List.foldlM_nil]
    exact congrArg Except.ok (List.append_nil found).symm
  | cons f formats ih =>
    intro found hnodup hfound
    rw [List.foldlM_cons, hwrite f]
    cases hf : text? f with
    | none =>
      have hskip : (found.map Conversion.format ++ formats).Nodup :=
        hnodup.sublist ((List.sublist_cons_self f formats).append_left _)
      have hnone : expressed text? (f :: formats) = expressed text? formats := by
        simp [expressed, hf]
      rw [hnone]
      exact ih found hskip hfound
    | some s =>
      have hadd : addConversion found ⟨f, s⟩ = found ++ [⟨f, s⟩] := by
        refine addConversion_eq fun earlier hmem => ?_
        refine hapart earlier.format f _ _ (hfound earlier hmem) hf ?_
        have hdisjoint := List.disjoint_of_nodup_append hnodup
        rintro rfl
        exact hdisjoint (List.mem_map_of_mem hmem) List.mem_cons_self
      have hmoved : ((found ++ [Conversion.mk f s]).map Conversion.format ++ formats).Nodup := by
        rw [List.map_append, List.append_assoc]
        exact hnodup
      have hall : ∀ x ∈ found ++ [⟨f, s⟩], text? x.format = some x.text := by
        intro x hx
        rcases List.mem_append.mp hx with hx | hx
        · exact hfound x hx
        · rw [List.mem_singleton.mp hx]
          exact hf
      have hsome : expressed text? (f :: formats) = ⟨f, s⟩ :: expressed text? formats := by
        simp [expressed, hf]
      have hrest := ih (found ++ [⟨f, s⟩]) hmoved hall
      rw [← hadd] at hrest
      rw [hsome, ← List.singleton_append, ← List.append_assoc, ← hadd]
      exact hrest

/-- The list of what the formats can express, where that is something. -/
theorem conversions_eq (hwrite : ∀ f, c.write? f = .ok (text? f))
    (hapart : ∀ f g s t, text? f = some s → text? g = some t → f ≠ g →
      s.toList.map Char.toLower ≠ t.toList.map Char.toLower)
    (preferred : Option Format) {first : Format}
    (hfirst : preferred.getD (if c.alpha < 1 then .rgba else .rgb) = first)
    (hsomething : (expressed text? first.priority).isEmpty = false) :
    c.conversions preferred = .ok (expressed text? first.priority) := by
  have hloop := foldlM_write? hwrite hapart first.priority [] first.nodup_priority (by simp)
  rw [List.nil_append] at hloop
  have hconversions : c.conversions preferred = (do
      let found ← first.priority.foldlM (fun found format => do
        match ← c.write? format with
        | some text => return addConversion found ⟨format, text⟩
        | none => return found) []
      if found.isEmpty then return [⟨.rgba, ← c.rgb true⟩] else return found) := by
    rw [← hfirst]
    rfl
  rw [hconversions, hloop]
  change (if (expressed text? first.priority).isEmpty = true then _ else _) = _
  rw [hsomething]
  rfl

end Loop

/-- A colour that is read from a text is offered in exactly the formats that can express it, in the order
of their priority: all seven if it is opaque, and the four that can tell an opacity if not. No two of the
texts are the same but for the case of their letters, so none is left out, and the list never falls back to
a text of its own. A preferred format that can express the colour comes first. -/
theorem conversions_of_ofText? {text : String} {c : Color Float} (hc : ofText? text = some c)
    (preferred : Option Format) :
    ∃ found, c.conversions preferred = .ok found ∧
      (let first := preferred.getD (if c.alpha < 1 then .rgba else .rgb)
       first.priority.Perm Format.all ∧
       found.map Conversion.format =
        if c.alpha == 1 then first.priority
        else first.priority.filter (· ∈ [Format.hexAlpha, .rgba, .hsla, .compact])) ∧
      found.length = (if c.alpha == 1 then 7 else 4) ∧
      (∀ x ∈ found, c.write? x.format = .ok (some x.text)) ∧
      (∀ f, f ∉ found.map Conversion.format → c.write? f = .ok none) ∧
      found.Pairwise (fun x y => x.text.toList.map Char.toLower ≠ y.text.toList.map Char.toLower) ∧
      ∀ f, preferred = some f → c.write? f ≠ .ok none →
        (found.map Conversion.format).head? = some f := by
  obtain ⟨r, g, b, hchannels⟩ := exists_hasChannels hc
  choose text? hwrite hsome hbegins using hchannels.write?_cases
  have hapart : ∀ f g s t, text? f = some s → text? g = some t → f ≠ g →
      s.toList.map Char.toLower ≠ t.toList.map Char.toLower :=
    fun f g s t hs ht hne => (hbegins f s hs).map_toLower_ne (hbegins g t ht) hne
  generalize hfirst : preferred.getD (if c.alpha < 1 then Format.rgba else .rgb) = first
  have hlength := length_expressed_priority hsome first
  have hsomething : (expressed text? first.priority).isEmpty = false := by
    rw [List.isEmpty_eq_false_iff, ← List.length_pos_iff, hlength]
    split <;> decide
  have hperm : first.priority.Perm Format.all := by
    cases first <;> decide
  refine ⟨expressed text? first.priority, conversions_eq hwrite hapart preferred hfirst hsomething,
    ⟨hperm, map_format_expressed_priority hsome first⟩, hlength, fun x hx => ?_, fun f hf => ?_, ?_,
    fun f hf hexpresses => ?_⟩
  · rw [hwrite, (mem_expressed.mp hx).2]
  · have hnone : text? f = none := by
      rw [Option.eq_none_iff_forall_not_mem]
      intro s hs
      exact hf (List.mem_map.mpr ⟨⟨f, s⟩, mem_expressed.mpr ⟨first.mem_priority f, hs⟩, rfl⟩)
    rw [hwrite, hnone]
  · refine List.pairwise_filterMap.mpr (first.nodup_priority.imp fun {f g} hne x hx y hy => ?_)
    obtain ⟨s, hs, rfl⟩ := Option.map_eq_some_iff.mp hx
    obtain ⟨t, ht, rfl⟩ := Option.map_eq_some_iff.mp hy
    exact hapart f g s t hs ht hne
  · subst hf
    obtain rfl : f = first := hfirst
    refine head?_expressed_priority hsome f ?_
    by_contra hnone
    rw [Option.not_isSome_iff_eq_none] at hnone
    exact hexpresses (by rw [hwrite, hnone])

/-- A translucent colour, with a format preferred that can express it. -/
theorem conversions_of_ofText?_translucent :
    ∃ c : Color Float, ofText? "rgba(30, 144, 255, 0.5)" = some c ∧
      ∃ found, c.conversions (some .hsla) = .ok found ∧ found.length = 4 ∧
        (found.map Conversion.format).head? = some .hsla := by
  have hread : (ofText? "rgba(30, 144, 255, 0.5)" : Option (Color Float)).map (·.alpha == 1) =
      some false := by
    decide +kernel
  obtain ⟨c, hc, htranslucent⟩ := Option.map_eq_some_iff.mp hread
  have hexpresses : c.write? .hsla ≠ .ok none := by
    change (some <$> c.hsl true) ≠ .ok none
    cases c.hsl true with
    | error e => exact fun h => by cases h
    | ok s => exact fun h => by cases h
  obtain ⟨found, hfound, -, hlength, -, -, -, hhead⟩ := conversions_of_ofText? hc (some .hsla)
  rw [htranslucent] at hlength
  exact ⟨c, hc, found, hfound, hlength, hhead .hsla rfl hexpresses⟩

end Color

end Swatch
