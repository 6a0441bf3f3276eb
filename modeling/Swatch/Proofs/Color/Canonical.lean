import Swatch.Proofs.Color.Range
import Swatch.Proofs.Color.Spelling

/-!
The canonical text of a colour goes by its whole channels and the hundredths of its opacity, and both
come through being written and read again.
Main statements: over exact rationals as over doubles, a colour that is read from a text has a
canonical text, which is what it is as a call of `rgb`, and which is read as a colour with the same
channels and the same canonical text.
-/

namespace Swatch.Color

variable {α : Type} [Scalar α]

/-- A colour with a canonical text, as a call of `rgb` too; it is read as a colour of which the same
text is the canonical one. -/
structure IsCanonical (c : Color α) : Prop where
  css?_eq : c.css? = .ok c.css
  rgb_eq : c.rgb false = .ok c.css
  reread : ∃ c' : Color α, ofText? c.css = some c' ∧ c'.css? = .ok c.css ∧ c'.channels = c.channels

/-- Whether so many hundredths of an opacity are found again in what the opacity is written as. Only a
full opacity is not written. -/
def keepsHundredths (α : Type) [Scalar α] (k : Nat) : Bool :=
  let alpha : α := Scalar.ofDecimal (Decimal.hundredths k)
  if alpha < 1 then
    match Scalar.text alpha with
    | .ok s =>
      !(alpha == 1) && !s.toList.isEmpty && s.toList.all (!isSeparator ·) &&
        (Scalar.nearest (opacity (some s.toList) * 100 : α)).toOption == some (k : Int)
    | .error _ => false
  else alpha == 1 && (Scalar.nearest (1 * 100 : α)).toOption == some (k : Int)

theorem toOption_eq_some_iff {β : Type} {x : Except ArithmeticError β} {y : β} :
    x.toOption = some y ↔ x = .ok y := by
  cases x <;> simp [Except.toOption]

theorem keepsHundredths_cases {k : Nat} {alpha : α} (hk : keepsHundredths α k = true)
    (halpha : Scalar.ofDecimal (Decimal.hundredths k) = alpha) :
    (alpha < 1 ∧ (alpha == 1) = false ∧ ∃ s, Scalar.text alpha = .ok s ∧ s.toList ≠ [] ∧
      (∀ c ∈ s.toList, isSeparator c = false) ∧
        Scalar.nearest (opacity (some s.toList) * 100 : α) = .ok k) ∨
      (¬alpha < 1 ∧ (alpha == 1) = true ∧ Scalar.nearest (1 * 100 : α) = .ok k) := by
  subst halpha
  simp only [keepsHundredths] at hk
  split at hk
  · rename_i hlt
    split at hk
    · rename_i s htext
      simp only [Bool.and_eq_true, Bool.not_eq_true', List.isEmpty_eq_false_iff, List.all_eq_true,
        @beq_iff_eq (Option Int), toOption_eq_some_iff] at hk
      obtain ⟨⟨⟨hfull, hne⟩, hword⟩, hagain⟩ := hk
      exact .inl ⟨hlt, hfull, s, htext, hne, hword, hagain⟩
    · cases hk
  · rename_i hle
    rw [Bool.and_eq_true, @beq_iff_eq (Option Int), toOption_eq_some_iff] at hk
    exact .inr ⟨hle, hk⟩

/-- An arithmetic in which the channels and the hundredths of a colour are kept. -/
structure IsExact (P : α → Prop) : Prop where
  channel : ∀ n : Nat, n ≤ 255 → channel? (α := α) (Nat.toDigits 10 n) = .ok (some n)
  byte : ∀ n : Nat, n ≤ 255 → Scalar.nearest (Scalar.ofInt n / 255 * 255 : α) = .ok n
  exists_hundredths : ∀ x, P x → ∃ k : Nat, k ≤ 100 ∧ Scalar.nearest (x * 100) = .ok k
  hundredths : ∀ k : Nat, k ≤ 100 → keepsHundredths α k = true

theorem css?_congr {c c' : Color α} (hchannels : c.channels = c'.channels)
    (halpha : Scalar.nearest (c.alpha * 100) = Scalar.nearest (c'.alpha * 100)) :
    c.css? = c'.css? := by
  simp only [css?, Scalar.nearestHundredth, hchannels, halpha]

theorem css_eq {c : Color α} {s : String} (h : c.css? = .ok s) : c.css = s := by
  rw [css, h]
  rfl

section Exact

variable {P : α → Prop} {c : Color α} {r g b : Nat}

theorem IsExact.channels_ofChannels (h : IsExact P) (hr : r ≤ 255) (hg : g ≤ 255) (hb : b ≤ 255)
    (alpha : α) (written : Format) :
    (ofChannels (r, g, b) alpha written).channels = .ok ((r, g, b) : Int × Int × Int) := by
  unfold channels
  simp only [ofChannels, h.byte r hr, h.byte g hg, h.byte b hb]
  rfl

/-- A text is the canonical one of a colour if it is read as a colour with the same channels and the
same hundredths. -/
theorem isCanonical_of_reread {s : String} {c' : Color α} (hcss : c.css? = .ok s)
    (hrgb : c.rgb false = .ok s) (hread : ofText? s = some c') (hchannels : c'.channels = c.channels)
    (halpha : Scalar.nearest (c'.alpha * 100) = Scalar.nearest (c.alpha * 100)) : c.IsCanonical := by
  obtain rfl := css_eq hcss
  exact ⟨hcss, hrgb, c', hread, (css?_congr hchannels halpha).trans hcss, hchannels⟩

/-- A colour with whole channels and an opacity that can be rounded. -/
theorem IsExact.isCanonical (h : IsExact P) (hc : HasChannels P c r g b) : c.IsCanonical := by
  obtain ⟨k, hk, hround⟩ := h.exists_hundredths c.alpha hc.alpha
  have hback := h.channels_ofChannels hc.red hc.green hc.blue
  have hchannels : c.channels = .ok ((r, g, b) : Int × Int × Int) := by
    rw [hc.eq]
    exact hback c.alpha c.written
  obtain ⟨alpha, heq⟩ : ∃ alpha : α, Scalar.ofDecimal (Decimal.hundredths k) = alpha := ⟨_, rfl⟩
  have halpha : Scalar.nearestHundredth c.alpha = .ok alpha := by
    rw [Scalar.nearestHundredth, hround, ← heq]
    rfl
  have hred := h.channel r hc.red
  have hgreen := h.channel g hc.green
  have hblue := h.channel b hc.blue
  obtain ⟨hlt, hfull, s, htext, hne, hword, hagain⟩ | ⟨hle, hfull, hagain⟩ :=
    keepsHundredths_cases (h.hundredths k hk) heq
  · refine isCanonical_of_reread (s := rgbaText (r, g, b) s) ?_ ?_
      (ofText?_rgba hred hgreen hblue hne hword) ((hback _ _).trans hchannels.symm)
      (hagain.trans hround.symm)
    · rw [css?, hchannels, halpha]
      change (if alpha < 1 then (do return rgbaText (r, g, b) (← Scalar.text alpha)) else _) = _
      rw [if_pos hlt, htext]
      rfl
    · rw [rgb, hchannels, halpha]
      change (if (!false && alpha == 1) = true then _
        else (do return rgbaText (r, g, b) (← Scalar.text alpha))) = _
      rw [hfull, htext]
      rfl
  · refine isCanonical_of_reread (s := rgbText (r, g, b)) ?_ ?_ (ofText?_rgb hred hgreen hblue)
      ((hback _ _).trans hchannels.symm) (hagain.trans hround.symm)
    · rw [css?, hchannels, halpha]
      exact if_neg hle
    · rw [rgb, hchannels, halpha]
      change (if (!false && alpha == 1) = true then _ else _) = _
      rw [hfull]
      rfl

end Exact

/-! ### Exact rationals -/

theorem keepsHundredths_rat : ∀ k : Fin 101, keepsHundredths Rat k = true := by
  decide +kernel

theorem isExact_rat : IsExact fun alpha : Rat => 0 ≤ alpha ∧ alpha ≤ 1 where
  channel _ := channel?_toDigits
  byte n _ := by
    have hback : ((n : Int) : Rat) / 255 * 255 = (n : Int) := div_mul_cancel₀ _ (by decide)
    change Scalar.nearest (((n : Int) : Rat) / 255 * 255) = .ok (n : Int)
    rw [hback, Scalar.nearest_rat, Scalar.rounded_intCast]
  exists_hundredths x hx := by
    obtain ⟨k, hk⟩ := Int.eq_ofNat_of_zero_le (Scalar.rounded_nonneg (by linarith : 0 ≤ x * 100))
    have hle : Scalar.rounded (x * 100) ≤ (100 : Nat) := Scalar.rounded_le (by push_cast; linarith)
    rw [hk] at hle
    refine ⟨k, Int.ofNat_le.mp hle, ?_⟩
    rw [Scalar.nearest_rat, hk]
  hundredths k hk := keepsHundredths_rat ⟨k, Nat.lt_succ_of_le hk⟩

theorem isCanonical_rat {text : String} {c : Color Rat} (hc : ofText? text = some c) :
    c.IsCanonical := by
  obtain ⟨r, g, b, hbytes⟩ := isTame_rat.ofChars? hc
  exact isExact_rat.isCanonical hbytes

/-! ### Doubles -/

theorem keepsHundredths_float : ∀ k : Fin 101, keepsHundredths Float k = true := by
  decide +kernel

theorem hasValue_ofDecimal {n : Nat} (hn : n ≤ 255) :
    Binary64.HasValue (Scalar.ofDecimal ⟨false, n, 0⟩) n := by
  have hfinite : (Decimal.mk false n 0).isFinite = true :=
    Binary64.isFinite_of_lt (by decide : 0 < 9) (by omega : n < 10 ^ 9) (by dsimp only; omega)
  rcases Nat.eq_zero_or_pos n with rfl | hpos
  · decide
  · have hnearest : (Scalar.ofDecimal ⟨false, n, 0⟩ : Float) = Float.ofScientific (n * 1) false 0 := by
      change Binary64.nearest ⟨false, n, 0⟩ = _
      simp [Binary64.nearest, hfinite, hpos.ne']
    rw [hnearest, Nat.mul_one]
    exact Binary64.hasValue_ofScientific (lt_of_le_of_lt hn (by decide))

theorem isExact_float : IsExact IsOpacity where
  channel n hn := by
    have hcast : (n : Rat) ≤ 255 := by exact_mod_cast hn
    refine channel?_toDigits_of_nearest hn (nearest_eq (hasValue_ofDecimal hn) (abs_le.mpr ⟨?_, ?_⟩) ?_)
    · exact le_trans (by norm_num) (n.cast_nonneg : (0 : Rat) ≤ n)
    · linarith
    · simp
  byte _ := nearest_byte
  exists_hundredths _ hx := hx.exists_hundredths
  hundredths k hk := keepsHundredths_float ⟨k, Nat.lt_succ_of_le hk⟩

theorem isCanonical_float {cs : List Char} {c : Color Float} (hc : ofChars? cs = some c) :
    c.IsCanonical := by
  obtain ⟨r, g, b, hbytes⟩ := exists_hasChannels hc
  exact isExact_float.isCanonical hbytes

end Swatch.Color
