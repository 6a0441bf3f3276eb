import Swatch.Proofs.Color.Form
import Swatch.Proofs.Color.Inverse

/-!
Writing a colour and reading it again, over exact rationals: in every format that can express the
colour, what is written is read in that format, with the same whole channels and with an opacity that
is off by half a step of the format at most.
-/

namespace Swatch

/-- How far an opacity may move when it is written in a format and read again. -/
def Format.tolerance : Format → Rat
  | .hex | .rgb | .hsl => 0
  | .hexAlpha => 1 / 510
  | .rgba | .hsla | .compact => 1 / 200

theorem Format.tolerance_nonneg (f : Format) : 0 ≤ f.tolerance := by
  cases f <;> norm_num [Format.tolerance]

namespace Color

/-- A colour read again after it was written in a format. -/
structure Recovers (f : Format) (c c' : Color Rat) : Prop where
  written : c'.written = f
  channels : ∃ rgb, c.channels = .ok rgb ∧ c'.channels = .ok rgb
  alpha : |c'.alpha - c.alpha| ≤ f.tolerance

/-- A colour is written, and what is written is read in the format as nearly the colour. -/
def Returns (f : Format) (c : Color Rat) (text : Except ArithmeticError String) : Prop :=
  ∃ s c', text = .ok s ∧ ofText? s = some c' ∧ Recovers f c c'

/-! ### Parts of a text -/

/-- A number up to 360 is written as the hundredth that is nearest to it. -/
theorem exists_hundredth {y : Rat} {high : Nat} (hhigh : high ≤ 360) (hy : 0 ≤ y ∧ y ≤ high) :
    ∃ s q, Scalar.nearestHundredth y = .ok q ∧ Scalar.text q = .ok s ∧ Denotes s.toList q ∧
      (0 ≤ q ∧ q ≤ high) ∧ |q - y| ≤ 1 / 200 := by
  obtain ⟨k, hk⟩ := Int.eq_ofNat_of_zero_le (Scalar.rounded_nonneg (by linarith : 0 ≤ y * 100))
  have hround := abs_le.mp (Scalar.abs_rounded_sub_le (y * 100))
  have hle : Scalar.rounded (y * 100) ≤ (high * 100 : Nat) := by
    refine Scalar.rounded_le ?_
    push_cast
    linarith [hy.2]
  rw [hk, Int.cast_natCast] at hround
  rw [hk] at hle
  have hkhigh : k ≤ high * 100 := by exact_mod_cast hle
  have hcast : (k : Rat) ≤ high * 100 := by exact_mod_cast hkhigh
  obtain ⟨s, hs, hdenotes⟩ := Scalar.exists_text (by omega : k < 10 ^ 5)
  refine ⟨s, k / 100, ?_, hs, hdenotes, ⟨by positivity, by linarith⟩,
    abs_le.mpr ⟨by linarith, by linarith⟩⟩
  rw [Scalar.nearestHundredth_rat, hk, Int.cast_natCast]

theorem componentText_eq {y q : Rat} {s : String} (hq : Scalar.nearestHundredth y = .ok q)
    (hs : Scalar.text q = .ok s) : componentText y = .ok s := by
  rw [componentText, hq]
  exact hs

theorem denotes_hundredths {u : Nat} (hu : u ≤ 100) :
    Denotes (Extended.pointed 2 u) ((u : Rat) / 100) := by
  have hdenotes := @Extended.denotes_pointed 2 u (by omega)
  rwa [(by norm_num : (10 : Rat) ^ 2 = 100)] at hdenotes

theorem hundredths_mem {u : Nat} (hu : u ≤ 100) : 0 ≤ (u : Rat) / 100 ∧ (u : Rat) / 100 ≤ 1 := by
  have hcast : (u : Rat) ≤ 100 := by exact_mod_cast hu
  exact ⟨by positivity, by linarith⟩

/-- An opacity in a call of `hsla` or behind a triple. -/
theorem exists_alphaText {c : Color Rat} (hc : 0 ≤ c.alpha ∧ c.alpha ≤ 1) :
    ∃ u ≤ 100, c.alphaText.toList = Extended.pointed 2 u ∧ |(u : Rat) / 100 - c.alpha| ≤ 1 / 200 := by
  obtain ⟨u, hu, htext, habs⟩ := exists_pointed hc
  exact ⟨u, hu, (congrArg String.toList htext).trans String.toList_ofList, habs⟩

section Formats

variable {c : Color Rat} {r g b : Nat} {f : Format}

theorem HasBytes.recovers {alpha : Rat} (hc : c.HasBytes r g b)
    (halpha : |alpha - c.alpha| ≤ f.tolerance) :
    Recovers f c (ofChannels (r, g, b) alpha f) :=
  ⟨rfl, ⟨(r, g, b), hc.channels, channels_ofChannels⟩, halpha⟩

theorem HasBytes.recovers_full (hc : c.HasBytes r g b) (hfull : c.alpha = 1) :
    Recovers f c (ofChannels (r, g, b) 1 f) := by
  refine hc.recovers ?_
  rw [hfull, sub_self, abs_zero]
  exact f.tolerance_nonneg

/-- The components of a colour are rounded to hundredths, and these still stand for its channels. -/
theorem HasBytes.exists_triple (hc : c.HasBytes r g b) :
    ∃ text h s l x, c.triple = .ok text ∧ text.toList = componentsChars h s l ∧
      Spells h s l x (r, g, b) := by
  have hfraction {n : Nat} (hn : n ≤ 255) :
      0 ≤ ((n : Int) : Rat) / 255 ∧ ((n : Int) : Rat) / 255 ≤ 1 := by
    have hcast : ((n : Int) : Rat) ≤ 255 := by exact_mod_cast hn
    exact ⟨by positivity, by linarith⟩
  obtain ⟨x, hx, hshows, -⟩ := Hsl.ofRgb_rat (hfraction hc.red) (hfraction hc.green) (hfraction hc.blue)
  obtain ⟨h, hue, hrounded, htext, hhue, hmem, habs⟩ :=
    @exists_hundredth x.hue 360 (by decide) hshows.hue
  obtain ⟨s, saturation, hrounded', htext', hsaturation, hmem', habs'⟩ :=
    @exists_hundredth x.saturation 100 (by decide) hshows.saturation
  obtain ⟨l, lightness, hrounded'', htext'', hlightness, hmem'', habs''⟩ :=
    @exists_hundredth x.lightness 100 (by decide) hshows.lightness
  have hchannels := @Hsl.channels_of_isNear ⟨hue, saturation, lightness⟩ x r g b hshows
    ⟨hmem, hmem', hmem'', habs, habs', habs''⟩
  refine ⟨h ++ " " ++ s ++ "% " ++ l ++ "%", h.toList, s.toList, l.toList, ⟨hue, saturation, lightness⟩,
    ?_, ?_, ⟨hhue, hsaturation, hlightness, hchannels⟩⟩
  · have hparts : Hsl.ofRgb (c.red * 255) (c.green * 255) (c.blue * 255) = .ok x := by
      rw [hc.eq]
      exact hx
    exact triple_eq_ok hparts (componentText_eq hrounded htext) (componentText_eq hrounded' htext')
      (componentText_eq hrounded'' htext'')
  · simp [componentsChars]

/-! ### The seven formats -/

theorem returns_hex (hc : c.HasBytes r g b) (hfull : c.alpha = 1) : Returns .hex c (c.hex false) := by
  obtain ⟨s, hs, hchars⟩ := hc.exists_hex
  have hbytes : ∀ n ∈ [r, g, b], n ≤ 255 := by
    simpa using ⟨hc.red, hc.green, hc.blue⟩
  exact ⟨s, _, hs, ofText?_hex hchars hbytes (ofHex?_three hbytes), hc.recovers_full hfull⟩

theorem returns_hexAlpha (hc : c.HasBytes r g b) : Returns .hexAlpha c (c.hex true) := by
  obtain ⟨s, a, hs, hchars, habyte, ha⟩ := hc.exists_hexAlpha
  have hbytes : ∀ n ∈ [r, g, b, a], n ≤ 255 := by
    simpa using ⟨hc.red, hc.green, hc.blue, habyte⟩
  have hround := abs_le.mp (Scalar.abs_rounded_sub_le (c.alpha * 255))
  rw [ha, Int.cast_natCast] at hround
  have hmove : |(a : Rat) / 255 - c.alpha| ≤ 1 / 510 := abs_le.mpr ⟨by linarith, by linarith⟩
  exact ⟨s, _, hs, ofText?_hex hchars hbytes (ofHex?_four hbytes), hc.recovers hmove⟩

theorem returns_rgb (hc : c.HasBytes r g b) (hfull : c.alpha = 1) : Returns .rgb c (c.rgb false) := by
  have hone : Scalar.nearestHundredth c.alpha = .ok 1 := by
    have hround : Scalar.rounded (1 * 100) = 100 := Scalar.rounded_eq (by norm_num)
    rw [hfull, Scalar.nearestHundredth_rat, hround]
    norm_num
  have hwrite : c.rgb false = .ok (rgbText (r, g, b)) := by
    rw [rgb, hc.channels, hone]
    rfl
  exact ⟨_, _, hwrite, ofText?_rgb (channel?_toDigits hc.red) (channel?_toDigits hc.green)
    (channel?_toDigits hc.blue), hc.recovers_full hfull⟩

theorem returns_rgba (hc : c.HasBytes r g b) : Returns .rgba c (c.rgb true) := by
  obtain ⟨s, q, hnear, hs, hdenotes, hmem, habs⟩ := @exists_hundredth c.alpha 1 (by decide) hc.alpha
  have hwrite : c.rgb true = .ok (rgbaText (r, g, b) s) := by
    rw [rgb, hc.channels, hnear]
    change (do return rgbaText (r, g, b) (← Scalar.text q)) = _
    rw [hs]
    rfl
  have hread := ofText?_rgba (α := Rat) (channel?_toDigits hc.red) (channel?_toDigits hc.green)
    (channel?_toDigits hc.blue) hdenotes.ne_nil hdenotes.isSeparator_eq
  rw [hdenotes.opacity_eq hmem] at hread
  exact ⟨_, _, hwrite, hread, hc.recovers habs⟩

theorem returns_hsl (hc : c.HasBytes r g b) (hfull : c.alpha = 1) : Returns .hsl c (c.hsl false) := by
  obtain ⟨base, h, s, l, x, hbase, hchars, hx⟩ := hc.exists_triple
  have hwrite : c.hsl false = .ok ("hsl(" ++ base ++ ")") := by
    rw [hsl, hbase, hfull]
    rfl
  refine ⟨_, _, hwrite, ofText?_hsl hx ?_, hc.recovers_full hfull⟩
  simp [hchars, callChars]

theorem returns_hsla (hc : c.HasBytes r g b) : Returns .hsla c (c.hsl true) := by
  obtain ⟨base, h, s, l, x, hbase, hchars, hx⟩ := hc.exists_triple
  obtain ⟨u, hu, htext, habs⟩ := exists_alphaText hc.alpha
  have hwrite : c.hsl true = .ok ("hsla(" ++ base ++ " / " ++ c.alphaText ++ ")") := by
    rw [hsl, hbase]
    rfl
  refine ⟨_, _, hwrite, ofText?_hsla hx (denotes_hundredths hu) (hundredths_mem hu) ?_,
    hc.recovers habs⟩
  simp [hchars, htext, callChars]

theorem returns_compact (hc : c.HasBytes r g b) : Returns .compact c c.compact := by
  obtain ⟨base, h, s, l, x, hbase, hchars, hx⟩ := hc.exists_triple
  by_cases hfull : c.alpha = 1
  · have hwrite : c.compact = .ok base := by
      rw [compact, hbase, hfull]
      rfl
    refine ⟨_, _, hwrite, @ofText?_components h s l [] x (r, g, b) base none hx ?_ rfl
      (fun _ => rfl) (by simp), ?_⟩
    · rw [hchars, List.append_nil]
    · exact hc.recovers_full hfull
  · obtain ⟨u, hu, htext, habs⟩ := exists_alphaText hc.alpha
    have hone : (c.alpha == 1) = false := beq_eq_false_iff_ne.mpr hfull
    have hwrite : c.compact = .ok (base ++ " / " ++ c.alphaText) := by
      rw [compact, hbase]
      change (if (c.alpha == 1) = true then return base else return base ++ " / " ++ c.alphaText) = _
      rw [hone]
      rfl
    have hdenotes := denotes_hundredths hu
    have hlast : ∀ d ∈ (' ' :: '/' :: ' ' :: Extended.pointed 2 u).getLast?, Text.isBlank d = false := by
      intro d hd
      refine isBlank_of_isDigit (hdenotes.isDigit_last d ?_)
      rwa [← List.getLast?_append_of_ne_nil [' ', '/', ' '] hdenotes.ne_nil]
    have hread := @ofText?_components h s l (' ' :: '/' :: ' ' :: Extended.pointed 2 u) x (r, g, b)
      (base ++ " / " ++ c.alphaText) (some (Extended.pointed 2 u)) hx (by simp [hchars, htext])
      (slashed?_pointed hu) (by simp) hlast
    rw [hdenotes.opacity_eq (hundredths_mem hu)] at hread
    exact ⟨_, _, hwrite, hread, hc.recovers habs⟩

theorem exists_write? (hc : c.HasBytes r g b) (hf : f.isOpaqueOnly = true → c.alpha = 1) :
    ∃ s c', c.write? f = .ok (some s) ∧ ofText? s = some c' ∧ Recovers f c c' := by
  have hguard : ¬(f.isOpaqueOnly && !(c.alpha == 1)) = true := by
    rw [Bool.and_eq_true]
    rintro ⟨honly, htranslucent⟩
    rw [hf honly] at htranslucent
    exact absurd htranslucent (by decide)
  have hreturns {text : Except ArithmeticError String} (htext : Returns f c text) :
      ∃ s c', some <$> text = .ok (some s) ∧ ofText? s = some c' ∧ Recovers f c c' := by
    obtain ⟨s, c', rfl, hread, hrecovers⟩ := htext
    exact ⟨s, c', rfl, hread, hrecovers⟩
  unfold write?
  rw [if_neg hguard]
  cases f with
  | hex => exact hreturns (returns_hex hc (hf rfl))
  | hexAlpha => exact hreturns (returns_hexAlpha hc)
  | rgb => exact hreturns (returns_rgb hc (hf rfl))
  | rgba => exact hreturns (returns_rgba hc)
  | hsl => exact hreturns (returns_hsl hc (hf rfl))
  | hsla => exact hreturns (returns_hsla hc)
  | compact => exact hreturns (returns_compact hc)

end Formats

/-- Writing and reading are inverse to each other: an opaque-only format expresses exactly the opaque
colours, and what is written in a format that expresses the colour is read in that format, with the
same three channels and an opacity that is off by half a step of the format at most. -/
theorem write?_recovers {text : String} {c : Color Rat} (hc : ofText? text = some c) (f : Format) :
    (c.write? f = .ok none ↔ (f = .hex ∨ f = .rgb ∨ f = .hsl) ∧ c.alpha ≠ 1) ∧
      (c.write? f = .ok none ∨
        ∃ s c', c.write? f = .ok (some s) ∧ ofText? s = some c' ∧ Recovers f c c') := by
  obtain ⟨r, g, b, hbytes⟩ := inGamut_of_ofChars? hc
  have honly : (f = .hex ∨ f = .rgb ∨ f = .hsl) ↔ f.isOpaqueOnly = true := by
    cases f <;> simp [Format.isOpaqueOnly]
  rw [honly]
  by_cases hnone : f.isOpaqueOnly = true ∧ c.alpha ≠ 1
  · have hwrite : c.write? f = .ok none := by
      have hone : (c.alpha == 1) = false := beq_eq_false_iff_ne.mpr hnone.2
      unfold write?
      rw [hnone.1, hone]
      rfl
    exact ⟨⟨fun _ => hnone, fun _ => hwrite⟩, .inl hwrite⟩
  · obtain ⟨s, c', hwrite, hread, hrecovers⟩ :=
      exists_write? hbytes fun hf => not_not.mp fun hne => hnone ⟨hf, hne⟩
    refine ⟨⟨fun h => ?_, fun h => absurd h hnone⟩, .inr ⟨s, c', hwrite, hread, hrecovers⟩⟩
    rw [hwrite] at h
    cases h

theorem write?_recovers_translucent :
    ∃ c : Color Rat, ofText? "rgba(30, 144, 255, 0.5)" = some c ∧
      ∃ s c', c.write? .hsla = .ok (some s) ∧ ofText? s = some c' ∧ Recovers .hsla c c' := by
  have hread : (ofText? "rgba(30, 144, 255, 0.5)" : Option (Color Rat)).isSome = true := by
    decide +kernel
  obtain ⟨c, hc⟩ := Option.isSome_iff_exists.mp hread
  obtain ⟨hnone, hwrite⟩ := write?_recovers hc .hsla
  refine ⟨c, hc, hwrite.resolve_left fun h => ?_⟩
  have honly : Format.hsla = .hex ∨ Format.hsla = .rgb ∨ Format.hsla = .hsl := (hnone.mp h).1
  simp at honly

end Color

end Swatch
