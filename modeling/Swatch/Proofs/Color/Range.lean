import Swatch.Proofs.Color.Gamut
import Swatch.Proofs.Number.Estimate

/-!
Every colour that is read, over doubles, has whole channels up to 255 and an opacity up to one, but for
a small step: what rounding does to the strength of a channel is too little to reach another whole one.

Main statement: `Color.exists_hasChannels`. Channels and hundredths of an opacity are counted back from
such a colour, and it has a hue, a saturation and a lightness that can be written.
-/

namespace Swatch

open Binary64

theorem step_le : step ≤ 1 / 100000000 := by
  norm_num [step]

theorem abs_mul_le_of_le {a b : Rat} (ha : |a| ≤ 256) (hb : |b| ≤ 256) : |a * b| ≤ 65536 := by
  rw [abs_mul]
  calc |a| * |b| ≤ 256 * 256 := mul_le_mul ha hb (abs_nonneg b) (by norm_num)
    _ = 65536 := by norm_num

/-- A product is as near to the product it stands for as its first factor is to another number, but for
the size of the second factor and one more step. -/
theorem hasValue_mul_near {x y : Float} {a a' b e k : Rat} (hx : HasValue x a) (hy : HasValue y b)
    (ha : |a| ≤ 256) (hnear : |a - a'| ≤ e) (hb : |b| ≤ k) (hk : k ≤ 256) :
    ∃ c, HasValue (x * y) c ∧ |c - a' * b| ≤ step + e * k := by
  obtain ⟨c, hc, hstep⟩ := hx.mul hy (abs_mul_le_of_le ha (hb.trans hk))
  have hfactor : |(a - a') * b| ≤ e * k := by
    rw [abs_mul]
    exact mul_le_mul hnear hb (abs_nonneg b) ((abs_nonneg _).trans hnear)
  refine ⟨c, hc, ?_⟩
  calc |c - a' * b| = |(c - a * b) + (a - a') * b| := by ring_nf
    _ ≤ |c - a * b| + |(a - a') * b| := abs_add_le _ _
    _ ≤ step + e * k := add_le_add hstep hfactor

/-- The quotient of two small whole numbers. -/
theorem hasValue_quotient {x y : Float} {a b : Rat} (hx : HasValue x a) (hy : HasValue y b)
    (ha : |a| ≤ 65536) (hb : 1 ≤ |b|) : ∃ c, HasValue (x / y) c ∧ |c - a / b| ≤ step := by
  refine hx.div hy (abs_pos.mp (lt_of_lt_of_le one_pos hb)) ?_
  rw [abs_div]
  exact le_trans (div_le_self (abs_nonneg a) hb) ha

namespace Hsl

/-! ### The strength of a channel -/

theorem hasValue_wrap {t : Float} {T : Rat} (ht : HasValue t T) (hT : -1 / 2 ≤ T ∧ T ≤ 3 / 2) :
    ∃ W, HasValue (wrap t) W ∧ -1 / 1000000 ≤ W ∧ W ≤ 1 := by
  obtain ⟨hlow, hhigh⟩ := hT
  have hone : HasValue 1 1 := hasValue_ofNat (by decide)
  have hstep := step_le
  have hraised : ∃ U, HasValue (if t < 0 then t + 1 else t) U ∧ 0 ≤ U ∧ U ≤ 3 / 2 := by
    split
    · rename_i hneg
      have hT := (ht.lt_iff hasValue_zero).mp hneg
      obtain ⟨U, hU, hnear⟩ := ht.add hone (abs_le.mpr ⟨by linarith, by linarith⟩)
      obtain ⟨hdown, hup⟩ := abs_le.mp hnear
      exact ⟨U, hU, by linarith, by linarith⟩
    · rename_i hpos
      exact ⟨T, ht, not_lt.mp (mt (ht.lt_iff hasValue_zero).mpr hpos), hhigh⟩
  obtain ⟨U, hU, hUlow, hUhigh⟩ := hraised
  unfold wrap
  dsimp only
  generalize (if t < 0 then t + 1 else t) = u at hU
  split
  · rename_i hlarge
    have hU1 := (hone.lt_iff hU).mp hlarge
    obtain ⟨W, hW, hnear⟩ := hU.sub hone (abs_le.mpr ⟨by linarith, by linarith⟩)
    obtain ⟨hdown, hup⟩ := abs_le.mp hnear
    exact ⟨W, hW, by linarith, by linarith⟩
  · rename_i hsmall
    exact ⟨U, hU, by linarith, not_lt.mp (mt (hone.lt_iff hU).mpr hsmall)⟩

/-- A point between two strengths, or hardly beyond one of them. -/
theorem mix_mem {P Q w : Rat} (hP : -1 / 100000 ≤ P ∧ P ≤ 1 + 1 / 100000)
    (hQ : -1 / 100000 ≤ Q ∧ Q ≤ 1 + 1 / 100000) (hw : -1 / 100000 ≤ w ∧ w ≤ 1 + 1 / 100000) :
    -1 / 10000 ≤ P + (Q - P) * w ∧ P + (Q - P) * w ≤ 1 + 1 / 10000 := by
  obtain ⟨hPlow, hPhigh⟩ := hP
  obtain ⟨hQlow, hQhigh⟩ := hQ
  obtain ⟨hwlow, hwhigh⟩ := hw
  constructor <;> nlinarith

/-- The rising and the falling slope of a channel. -/
theorem hasValue_slope {p q x : Float} {P Q X : Rat} (hp : HasValue p P) (hq : HasValue q Q)
    (hx : HasValue x X) (hP : -1 / 100000 ≤ P ∧ P ≤ 1 + 1 / 100000)
    (hQ : -1 / 100000 ≤ Q ∧ Q ≤ 1 + 1 / 100000) (hX : -1 / 600000 ≤ X ∧ X ≤ 1 / 6 + 1 / 600000) :
    (∃ R, HasValue (p + (q - p) * 6 * x) R ∧ -1 / 1000 ≤ R ∧ R ≤ 1 + 1 / 1000) ∧
      ∃ R, HasValue (p + (q - p) * x * 6) R ∧ -1 / 1000 ≤ R ∧ R ≤ 1 + 1 / 1000 := by
  obtain ⟨hmixlow, hmixhigh⟩ := @mix_mem P Q (6 * X) hP hQ ⟨by linarith [hX.1], by linarith [hX.2]⟩
  obtain ⟨hPlow, hPhigh⟩ := hP
  obtain ⟨hQlow, hQhigh⟩ := hQ
  obtain ⟨hXlow, hXhigh⟩ := hX
  have hsix : HasValue 6 6 := hasValue_ofNat (by decide)
  have hsixth : |(6 : Rat)| ≤ 6 := by norm_num
  have hX1 : |X| ≤ 1 := abs_le.mpr ⟨by linarith, by linarith⟩
  have hstep := step_le
  obtain ⟨D, hD, hnearD⟩ := hq.sub hp (abs_le.mpr ⟨by linarith, by linarith⟩)
  obtain ⟨hDlow, hDhigh⟩ := abs_le.mp hnearD
  have hDsmall : |D| ≤ 256 := abs_le.mpr ⟨by linarith, by linarith⟩
  constructor
  · obtain ⟨E, hE, hnearE⟩ := hasValue_mul_near hD hsix hDsmall hnearD hsixth (by norm_num)
    obtain ⟨hElow, hEhigh⟩ := abs_le.mp hnearE
    have hEsmall : |E| ≤ 256 := abs_le.mpr ⟨by linarith, by linarith⟩
    obtain ⟨M, hM, hnearM⟩ := hasValue_mul_near hE hx hEsmall hnearE hX1 (by norm_num)
    obtain ⟨hMlow, hMhigh⟩ := abs_le.mp hnearM
    obtain ⟨R, hR, hnearR⟩ := hp.add hM (abs_le.mpr ⟨by linarith, by linarith⟩)
    obtain ⟨hRlow, hRhigh⟩ := abs_le.mp hnearR
    exact ⟨R, hR, by linarith, by linarith⟩
  · obtain ⟨E, hE, hnearE⟩ := hasValue_mul_near hD hx hDsmall hnearD hX1 (by norm_num)
    obtain ⟨hElow, hEhigh⟩ := abs_le.mp hnearE
    have hEsmall : |E| ≤ 256 := abs_le.mpr ⟨by linarith, by linarith⟩
    obtain ⟨M, hM, hnearM⟩ := hasValue_mul_near hE hsix hEsmall hnearE hsixth (by norm_num)
    obtain ⟨hMlow, hMhigh⟩ := abs_le.mp hnearM
    obtain ⟨R, hR, hnearR⟩ := hp.add hM (abs_le.mpr ⟨by linarith, by linarith⟩)
    obtain ⟨hRlow, hRhigh⟩ := abs_le.mp hnearR
    exact ⟨R, hR, by linarith, by linarith⟩

theorem hasValue_channelAt {p q t : Float} {P Q T : Rat} (hp : HasValue p P) (hq : HasValue q Q)
    (ht : HasValue t T) (hP : -1 / 100000 ≤ P ∧ P ≤ 1 + 1 / 100000)
    (hQ : -1 / 100000 ≤ Q ∧ Q ≤ 1 + 1 / 100000) (hT : -1 / 2 ≤ T ∧ T ≤ 3 / 2) :
    ∃ R, HasValue (channelAt p q t) R ∧ -1 / 1000 ≤ R ∧ R ≤ 1 + 1 / 1000 := by
  obtain ⟨W, hW, hWlow, hWhigh⟩ := hasValue_wrap ht hT
  have hone : HasValue 1 1 := hasValue_ofNat (by decide)
  have htwo : HasValue 2 2 := hasValue_ofNat (by decide)
  have hstep := step_le
  obtain ⟨sixth, hsixth, hnear⟩ := hasValue_quotient hone (hasValue_ofNat (by decide) : HasValue 6 6)
    (by norm_num) (by norm_num)
  obtain ⟨hsixthLow, hsixthHigh⟩ := abs_le.mp hnear
  obtain ⟨thirds, hthirds, hnear⟩ := hasValue_quotient htwo (hasValue_ofNat (by decide) : HasValue 3 3)
    (by norm_num) (by norm_num)
  obtain ⟨hthirdsLow, hthirdsHigh⟩ := abs_le.mp hnear
  unfold channelAt
  dsimp only
  split
  · rename_i hrising
    have hW' := (hW.lt_iff hsixth).mp hrising
    exact (hasValue_slope hp hq hW hP hQ ⟨by linarith, by linarith⟩).1
  split
  · exact ⟨Q, hq, by linarith [hQ.1], by linarith [hQ.2]⟩
  split
  · rename_i hlow hfalling
    have hW' := (hW.lt_iff hthirds).mp hfalling
    have hW'' := not_lt.mp (mt (hW.lt_iff hasValue_half).mpr hlow)
    obtain ⟨X, hX, hnear⟩ := hthirds.sub hW (abs_le.mpr ⟨by linarith, by linarith⟩)
    obtain ⟨hXlow, hXhigh⟩ := abs_le.mp hnear
    exact (hasValue_slope hp hq hX hP hQ ⟨by linarith, by linarith⟩).2
  · exact ⟨P, hp, by linarith [hP.1], by linarith [hP.2]⟩

/-! ### Whole channels -/

theorem isByte_nearest {y : Float} {R : Rat} (hy : HasValue y R)
    (hR : -1 / 1000 ≤ R ∧ R ≤ 1 + 1 / 1000) :
    ∃ n : Int, Scalar.nearest (y * 255) = .ok n ∧ IsByte n := by
  obtain ⟨hlow, hhigh⟩ := hR
  have hstep := step_le
  obtain ⟨S, hS, hnear⟩ := hy.mul (hasValue_ofNat (by decide) : HasValue 255 255)
    (abs_mul_le_of_le (abs_le.mpr ⟨by linarith, by linarith⟩) (by norm_num))
  obtain ⟨hSlow, hShigh⟩ := abs_le.mp hnear
  obtain ⟨n, hn, hnear⟩ := hS.nearest (abs_le.mpr ⟨by linarith, by linarith⟩)
  obtain ⟨hnlow, hnhigh⟩ := abs_le.mp hnear
  refine ⟨n, hn, Int.lt_add_one_iff.mp ?_, Int.lt_add_one_iff.mp ?_⟩
  · have hcast : (0 : Rat) < n + 1 := by linarith
    exact_mod_cast hcast
  · have hcast : (n : Rat) < 255 + 1 := by linarith
    exact_mod_cast hcast

/-- Below half of the lightness, the greatest strength of a channel and the least one. -/
theorem darkPeak_mem {S L : Rat} (hS : -1 / 1000000 ≤ S ∧ S ≤ 1 + 1 / 1000000)
    (hL : -1 / 1000000 ≤ L ∧ L ≤ 1 / 2) :
    (-1 / 400000 ≤ L * (1 + S) ∧ L * (1 + S) ≤ 1 + 1 / 400000) ∧
      -1 / 400000 ≤ L * (1 - S) ∧ L * (1 - S) ≤ 1 + 1 / 400000 := by
  obtain ⟨hSlow, hShigh⟩ := hS
  obtain ⟨hLlow, hLhigh⟩ := hL
  refine ⟨⟨?_, ?_⟩, ?_, ?_⟩ <;> nlinarith

/-- From half of the lightness on, they lie as far from full as the lightness lets them. -/
theorem lightPeak_mem {S L : Rat} (hS : -1 / 1000000 ≤ S ∧ S ≤ 1 + 1 / 1000000)
    (hL : 1 / 2 ≤ L ∧ L ≤ 1 + 1 / 1000000) :
    (-1 / 400000 ≤ L + S - L * S ∧ L + S - L * S ≤ 1 + 1 / 400000) ∧
      -1 / 400000 ≤ L - S + L * S ∧ L - S + L * S ≤ 1 + 1 / 400000 := by
  have hdark := @darkPeak_mem S (1 - L) hS ⟨by linarith [hL.2], by linarith [hL.1]⟩
  obtain ⟨⟨hlow, hhigh⟩, hlow', hhigh'⟩ := hdark
  exact ⟨⟨by linarith, by linarith⟩, by linarith, by linarith⟩

/-- The greatest strength of a channel. -/
theorem hasValue_peak {s l : Float} {S L : Rat} (hs : HasValue s S) (hl : HasValue l L)
    (hS : -1 / 1000000 ≤ S ∧ S ≤ 1 + 1 / 1000000) (hL : -1 / 1000000 ≤ L ∧ L ≤ 1 + 1 / 1000000) :
    ∃ Q, HasValue (if l < 1 / 2 then l * (1 + s) else l + s - l * s) Q ∧
      (-1 / 100000 ≤ Q ∧ Q ≤ 1 + 1 / 100000) ∧
      (-1 / 200000 ≤ 2 * L - Q ∧ 2 * L - Q ≤ 1 + 1 / 200000) := by
  have hpeak := @darkPeak_mem S L hS
  have hpeak' := @lightPeak_mem S L hS
  obtain ⟨hSlow, hShigh⟩ := hS
  obtain ⟨hLlow, hLhigh⟩ := hL
  have hone : HasValue 1 1 := hasValue_ofNat (by decide)
  have hstep := step_le
  have hLsmall : |L| ≤ 2 := abs_le.mpr ⟨by linarith, by linarith⟩
  have hSsmall : |S| ≤ 2 := abs_le.mpr ⟨by linarith, by linarith⟩
  split
  · rename_i hdark
    have hL' := (hl.lt_iff hasValue_half).mp hdark
    obtain ⟨⟨hlow, hhigh⟩, hlow', hhigh'⟩ := hpeak ⟨hLlow, hL'.le⟩
    obtain ⟨C, hC, hnearC⟩ := hone.add hs (abs_le.mpr ⟨by linarith, by linarith⟩)
    obtain ⟨hClow, hChigh⟩ := abs_le.mp hnearC
    obtain ⟨Q, hQ, hnearQ⟩ := hl.mul hC (abs_mul_le_of_le (hLsmall.trans (by norm_num))
      (abs_le.mpr ⟨by linarith, by linarith⟩))
    have hfactor : |L * C - L * (1 + S)| ≤ 2 * step := by
      rw [← mul_sub, abs_mul]
      exact mul_le_mul hLsmall hnearC (abs_nonneg _) (by norm_num)
    obtain ⟨hQlow, hQhigh⟩ := abs_le.mp hnearQ
    obtain ⟨hfactorLow, hfactorHigh⟩ := abs_le.mp hfactor
    exact ⟨Q, hQ, ⟨by linarith, by linarith⟩, by linarith, by linarith⟩
  · rename_i hlight
    have hL' := not_lt.mp (mt (hl.lt_iff hasValue_half).mpr hlight)
    obtain ⟨⟨hlow, hhigh⟩, hlow', hhigh'⟩ := hpeak' ⟨hL', hLhigh⟩
    obtain ⟨A, hA, hnearA⟩ := hl.add hs (abs_le.mpr ⟨by linarith, by linarith⟩)
    obtain ⟨hAlow, hAhigh⟩ := abs_le.mp hnearA
    obtain ⟨M, hM, hnearM⟩ := hl.mul hs
      (abs_mul_le_of_le (hLsmall.trans (by norm_num)) (hSsmall.trans (by norm_num)))
    obtain ⟨hMlow, hMhigh⟩ := abs_le.mp hnearM
    obtain ⟨Q, hQ, hnearQ⟩ := hA.sub hM (abs_le.mpr ⟨by linarith, by linarith⟩)
    obtain ⟨hQlow, hQhigh⟩ := abs_le.mp hnearQ
    exact ⟨Q, hQ, ⟨by linarith, by linarith⟩, by linarith, by linarith⟩

/-- A clamped component as a fraction of its range. -/
theorem hasValue_fraction {x high : Float} {h : Rat} {k : Int} (hx : IsNumber x)
    (hpositive : IsPositive k high) (hhigh : HasValue high h) (hh : 1 ≤ h) (hh' : h ≤ 65536) :
    ∃ c, HasValue (Scalar.clamp x 0 high / high) c ∧ -1 / 1000000 ≤ c ∧ c ≤ 1 + 1 / 1000000 := by
  have hstep := step_le
  obtain ⟨a, ha, hlow, hle⟩ := HasValue.clamp hx hpositive hhigh (by linarith)
  obtain ⟨c, hc, hnear⟩ := hasValue_quotient ha hhigh (abs_le.mpr ⟨by linarith, by linarith⟩)
    (le_trans hh (le_abs_self h))
  obtain ⟨hdown, hup⟩ := abs_le.mp hnear
  have hnonneg : 0 ≤ a / h := div_nonneg hlow (by linarith)
  have hone : a / h ≤ 1 := (div_le_one (by linarith)).mpr hle
  exact ⟨c, hc, by linarith, by linarith⟩

/-- Components have channels in their range, over doubles as well. -/
theorem isByte_channels_clamped {x : Hsl Float} (hhue : IsNumber x.hue)
    (hsaturation : IsNumber x.saturation) (hlightness : IsNumber x.lightness) :
    ∃ r g b, x.clamped.channels = .ok (r, g, b) ∧ IsByte r ∧ IsByte g ∧ IsByte b := by
  have hstep := step_le
  have hhundred : HasValue 100 100 := hasValue_ofNat (by decide)
  obtain ⟨H, hh, hHlow, hHhigh⟩ := hasValue_fraction hhue (by decide : IsPositive 9 (360 : Float))
    (hasValue_ofNat (by decide) : HasValue 360 360) (by norm_num) (by norm_num)
  obtain ⟨S, hs, hS⟩ := hasValue_fraction hsaturation (by decide : IsPositive 7 (100 : Float))
    hhundred (by norm_num) (by norm_num)
  obtain ⟨L, hl, hL⟩ := hasValue_fraction hlightness (by decide : IsPositive 7 (100 : Float))
    hhundred (by norm_num) (by norm_num)
  unfold channels clamped
  dsimp only
  generalize Scalar.clamp x.hue 0 360 / 360 = h at hh
  generalize Scalar.clamp x.saturation 0 100 / 100 = s at hs
  generalize Scalar.clamp x.lightness 0 100 / 100 = l at hl
  split
  · obtain ⟨gray, hgray, hbyte⟩ := isByte_nearest hl ⟨by linarith [hL.1], by linarith [hL.2]⟩
    rw [hgray]
    exact ⟨gray, gray, gray, rfl, hbyte, hbyte, hbyte⟩
  · obtain ⟨Q, hq, hQ, hrest⟩ := hasValue_peak hs hl hS hL
    generalize (if l < 1 / 2 then l * (1 + s) else l + s - l * s) = q at hq
    obtain ⟨hLlow, hLhigh⟩ := hL
    obtain ⟨D, hD, hnear⟩ := (hasValue_ofNat (by decide) : HasValue 2 2).mul hl
      (abs_mul_le_of_le (by norm_num) (abs_le.mpr ⟨by linarith, by linarith⟩))
    obtain ⟨hDlow, hDhigh⟩ := abs_le.mp hnear
    obtain ⟨P, hp, hnear⟩ := hD.sub hq (abs_le.mpr ⟨by linarith [hQ.1], by linarith [hQ.2]⟩)
    obtain ⟨hPlow, hPhigh⟩ := abs_le.mp hnear
    have hP : -1 / 100000 ≤ P ∧ P ≤ 1 + 1 / 100000 :=
      ⟨by linarith [hrest.1], by linarith [hrest.2]⟩
    obtain ⟨third, hthird, hnear⟩ := hasValue_quotient (hasValue_ofNat (by decide) : HasValue 1 1)
      (hasValue_ofNat (by decide) : HasValue 3 3) (by norm_num) (by norm_num)
    obtain ⟨hthirdLow, hthirdHigh⟩ := abs_le.mp hnear
    obtain ⟨T, hred, hnear⟩ := hh.add hthird (abs_le.mpr ⟨by linarith, by linarith⟩)
    obtain ⟨hTlow, hThigh⟩ := abs_le.mp hnear
    obtain ⟨U, hblue, hnear⟩ := hh.sub hthird (abs_le.mpr ⟨by linarith, by linarith⟩)
    obtain ⟨hUlow, hUhigh⟩ := abs_le.mp hnear
    obtain ⟨R, hR, hrange⟩ := hasValue_channelAt hp hq hred hP hQ ⟨by linarith, by linarith⟩
    obtain ⟨G, hG, hrange'⟩ := hasValue_channelAt hp hq hh hP hQ ⟨by linarith, by linarith⟩
    obtain ⟨B, hB, hrange''⟩ := hasValue_channelAt hp hq hblue hP hQ ⟨by linarith, by linarith⟩
    obtain ⟨r, hr, hrbyte⟩ := isByte_nearest hR hrange
    obtain ⟨g, hg, hgbyte⟩ := isByte_nearest hG hrange'
    obtain ⟨b, hb, hbbyte⟩ := isByte_nearest hB hrange''
    rw [hr, hg, hb]
    exact ⟨r, g, b, rfl, hrbyte, hgbyte, hbbyte⟩

end Hsl

namespace Color

/-! ### Colours -/

/-- An opacity between none and full, but for a small step. -/
def IsOpacity (x : Float) : Prop :=
  ∃ a, HasValue x a ∧ -1 / 1000000 ≤ a ∧ a ≤ 1 + 1 / 1000000

theorem hasValue_ofInt {n : Nat} (hn : n < 2 ^ 53) : HasValue (Scalar.ofInt n) n :=
  hasValue_ofScientific hn

/-- A channel as a fraction. -/
theorem hasValue_byte {n : Nat} (hn : n ≤ 255) :
    ∃ c, HasValue (Scalar.ofInt n / 255) c ∧ |c - n / 255| ≤ step := by
  have hcast : (n : Rat) ≤ 255 := by exact_mod_cast hn
  have hnonneg : (0 : Rat) ≤ n := n.cast_nonneg
  exact hasValue_quotient (hasValue_ofInt (lt_of_le_of_lt hn (by decide)))
    (hasValue_ofNat (by decide) : HasValue 255 255)
    (abs_le.mpr ⟨by linarith, by linarith⟩) (by norm_num)

/-- The arithmetic of doubles. -/
theorem isTame_float : IsTame IsNumber IsOpacity where
  number := isNumber_nearest
  full := ⟨1, hasValue_ofNat (by decide), by norm_num, by norm_num⟩
  byte a ha := by
    have hcast : (a : Rat) ≤ 255 := by exact_mod_cast ha
    have hnonneg : (0 : Rat) ≤ a := a.cast_nonneg
    have hstep := step_le
    obtain ⟨c, hc, hnear⟩ := hasValue_byte ha
    obtain ⟨hlow, hhigh⟩ := abs_le.mp hnear
    exact ⟨c, hc, by linarith, by linarith⟩
  fraction x hx := by
    obtain ⟨c, hc, hlow, hhigh⟩ := HasValue.clamp hx (by decide : IsPositive 1 (1 : Float))
      (hasValue_ofNat (by decide) : HasValue 1 1) (by norm_num)
    exact ⟨c, hc, by linarith, by linarith⟩
  percentage x hx := Hsl.hasValue_fraction hx (by decide : IsPositive 7 (100 : Float))
    (hasValue_ofNat (by decide) : HasValue 100 100) (by norm_num) (by norm_num)
  channel x n hx hn := by
    obtain ⟨c, hc, hlow, hhigh⟩ := Hsl.hasValue_fraction hx (by decide : IsPositive 7 (100 : Float))
      (hasValue_ofNat (by decide) : HasValue 100 100) (by norm_num) (by norm_num)
    obtain ⟨m, hm, hbyte⟩ := Hsl.isByte_nearest hc ⟨by linarith, by linarith⟩
    rw [hm] at hn
    cases hn
    exact hbyte
  components x hhue hsaturation hlightness r g b hchannels := by
    obtain ⟨r', g', b', hclamped, hr, hg, hb⟩ :=
      Hsl.isByte_channels_clamped hhue hsaturation hlightness
    rw [hclamped] at hchannels
    cases hchannels
    exact ⟨hr, hg, hb⟩

/-- What is read over doubles has whole channels up to 255, and an opacity up to one. -/
theorem exists_hasChannels {cs : List Char} {c : Color Float} (hc : ofChars? cs = some c) :
    ∃ r g b, HasChannels IsOpacity c r g b :=
  isTame_float.ofChars? hc

/-- A whole number that is near a double is the one that it is rounded to. -/
theorem nearest_eq {x : Float} {a : Rat} {n : Int} (hx : HasValue x a) (ha : |a| ≤ 65535)
    (hn : |a - n| ≤ 1 / 4) : Scalar.nearest x = .ok n := by
  have hstep := step_le
  obtain ⟨m, hm, hnear⟩ := hx.nearest ha
  obtain ⟨hlow, hhigh⟩ := abs_le.mp hnear
  obtain ⟨hlow', hhigh'⟩ := abs_le.mp hn
  have hsame : m = n := by
    have hless : (m : Rat) < n + 1 := by linarith
    have hmore : (n : Rat) < m + 1 := by linarith
    exact le_antisymm (Int.lt_add_one_iff.mp (by exact_mod_cast hless))
      (Int.lt_add_one_iff.mp (by exact_mod_cast hmore))
  rw [hm, hsame]

/-- A channel is counted back from its fraction. -/
theorem nearest_byte {n : Nat} (hn : n ≤ 255) :
    Scalar.nearest ((Scalar.ofInt n / 255 : Float) * 255) = .ok n := by
  have hcast : (n : Rat) ≤ 255 := by exact_mod_cast hn
  have hnonneg : (0 : Rat) ≤ n := n.cast_nonneg
  have hstep := step_le
  obtain ⟨c, hc, hnear⟩ := hasValue_byte hn
  obtain ⟨hlow, hhigh⟩ := abs_le.mp hnear
  obtain ⟨d, hd, hnear⟩ := hc.mul (hasValue_ofNat (by decide) : HasValue 255 255)
    (abs_mul_le_of_le (abs_le.mpr ⟨by linarith, by linarith⟩) (by norm_num))
  obtain ⟨hlow', hhigh'⟩ := abs_le.mp hnear
  refine nearest_eq hd (abs_le.mpr ⟨by linarith, by linarith⟩) (abs_le.mpr ⟨?_, ?_⟩)
  · push_cast
    linarith
  · push_cast
    linarith

theorem HasChannels.channels_eq {P : Float → Prop} {c : Color Float} {r g b : Nat}
    (hc : HasChannels P c r g b) : c.channels = .ok ((r, g, b) : Int × Int × Int) := by
  rw [hc.eq, channels]
  simp only [ofChannels, nearest_byte hc.red, nearest_byte hc.green, nearest_byte hc.blue]
  rfl

/-- An opacity in whole hundredths. -/
theorem IsOpacity.exists_hundredths {x : Float} (hx : IsOpacity x) :
    ∃ k : Nat, k ≤ 100 ∧ Scalar.nearest (x * 100) = .ok k := by
  obtain ⟨a, ha, hlow, hhigh⟩ := hx
  have hstep := step_le
  obtain ⟨d, hd, hnear⟩ := ha.mul (hasValue_ofNat (by decide) : HasValue 100 100)
    (abs_mul_le_of_le (abs_le.mpr ⟨by linarith, by linarith⟩) (by norm_num))
  obtain ⟨hlow', hhigh'⟩ := abs_le.mp hnear
  obtain ⟨n, hn, hnear⟩ := hd.nearest (abs_le.mpr ⟨by linarith, by linarith⟩)
  obtain ⟨hlow'', hhigh''⟩ := abs_le.mp hnear
  have hnonneg : 0 ≤ n := by
    have hless : (0 : Rat) < n + 1 := by linarith
    exact Int.lt_add_one_iff.mp (by exact_mod_cast hless)
  have hle : n ≤ 100 := by
    have hless : (n : Rat) < 100 + 1 := by linarith
    exact Int.lt_add_one_iff.mp (by exact_mod_cast hless)
  obtain ⟨k, rfl⟩ := Int.eq_ofNat_of_zero_le hnonneg
  exact ⟨k, Int.ofNat_le.mp hle, hn⟩

end Color

/-! ### Hue, saturation and lightness -/

namespace Hsl

/-- A channel as the conversion takes it. -/
def unit (n : Nat) : Float :=
  (Scalar.ofInt n / 255 : Float) * 255 / 255

theorem hasValue_unit {n : Nat} (hn : n ≤ 255) :
    ∃ c, HasValue (unit n) c ∧ n / 255 - 1 / 1000000 ≤ c ∧ c ≤ n / 255 + 1 / 1000000 := by
  have hcast : (n : Rat) ≤ 255 := by exact_mod_cast hn
  have hnonneg : (0 : Rat) ≤ n := n.cast_nonneg
  have hstep := step_le
  have hmax : HasValue 255 255 := hasValue_ofNat (by decide)
  obtain ⟨c, hc, hnear⟩ := Color.hasValue_byte hn
  obtain ⟨hlow, hhigh⟩ := abs_le.mp hnear
  obtain ⟨d, hd, hnear⟩ := hc.mul hmax
    (abs_mul_le_of_le (abs_le.mpr ⟨by linarith, by linarith⟩) (by norm_num))
  obtain ⟨hlow', hhigh'⟩ := abs_le.mp hnear
  obtain ⟨u, hu, hnear⟩ := hasValue_quotient hd hmax (abs_le.mpr ⟨by linarith, by linarith⟩)
    (by norm_num)
  obtain ⟨hlow'', hhigh''⟩ := abs_le.mp hnear
  exact ⟨u, hu, by linarith, by linarith⟩

theorem greater_eq_or (x y : Float) : Scalar.greater x y = x ∨ Scalar.greater x y = y := by
  unfold Scalar.greater
  split
  · exact .inr rfl
  · exact .inl rfl

theorem smaller_eq_or (x y : Float) : Scalar.smaller x y = x ∨ Scalar.smaller x y = y := by
  unfold Scalar.smaller
  split
  · exact .inr rfl
  · exact .inl rfl

/-- Of three channels the one that is picked is a channel. -/
theorem exists_pick {pick : Float → Float → Float} (hpick : ∀ x y, pick x y = x ∨ pick x y = y)
    {r g b : Nat} (hr : r ≤ 255) (hg : g ≤ 255) (hb : b ≤ 255) :
    ∃ n ≤ 255, pick (pick (unit r) (unit g)) (unit b) = unit n := by
  rcases hpick (pick (unit r) (unit g)) (unit b) with hfirst | hlast
  · rcases hpick (unit r) (unit g) with h | h
    · exact ⟨r, hr, by rw [hfirst, h]⟩
    · exact ⟨g, hg, by rw [hfirst, h]⟩
  · exact ⟨b, hb, hlast⟩

/-- A quotient whose divisor is far enough from zero. -/
theorem quotient_eq {x y : Float} {a b : Rat} (hx : HasValue x a) (hy : HasValue y b)
    (ha : |a| ≤ 2) (hb : 1 / 256 ≤ |b|) :
    ∃ z c, quotient x y = .ok z ∧ HasValue z c ∧ |c| ≤ 513 := by
  have hpos : 0 < |b| := lt_of_lt_of_le (by norm_num) hb
  have hbne : b ≠ 0 := abs_pos.mp hpos
  have hstep := step_le
  have hbound : |a / b| ≤ 512 := by
    rw [abs_div, div_le_iff₀ hpos]
    linarith
  obtain ⟨c, hc, hnear⟩ := hx.div hy hbne (le_trans hbound (by norm_num))
  have hzero : (y == 0) = false := by
    rw [hy.beq_eq hasValue_zero]
    exact decide_eq_false hbne
  refine ⟨x / y, c, ?_, hc, ?_⟩
  · exact if_neg (by rw [hzero]; exact Bool.false_ne_true)
  · obtain ⟨hlow, hhigh⟩ := abs_le.mp hnear
    obtain ⟨hlow', hhigh'⟩ := abs_le.mp hbound
    exact abs_le.mpr ⟨by linarith, by linarith⟩

theorem below_product {x y : Float} {a b : Rat} (hx : HasValue x a) (hy : HasValue y b)
    (hab : |a * b| ≤ 65000) : Below 17 (x * y) := by
  obtain ⟨c, hc, hnear⟩ := hx.mul hy (le_trans hab (by norm_num))
  have hstep := step_le
  obtain ⟨hlow, hhigh⟩ := abs_le.mp hnear
  obtain ⟨hlow', hhigh'⟩ := abs_le.mp hab
  refine hc.below (k := 16) (abs_le.mpr ⟨?_, ?_⟩) <;> norm_num <;> linarith

theorem hasValue_difference {m n : Nat} (hm : m ≤ 255) (hn : n ≤ 255) :
    ∃ D, HasValue (unit m - unit n) D ∧
      ((m : Rat) - n) / 255 - 1 / 100000 ≤ D ∧ D ≤ ((m : Rat) - n) / 255 + 1 / 100000 := by
  have hcast : (m : Rat) ≤ 255 := by exact_mod_cast hm
  have hcast' : (n : Rat) ≤ 255 := by exact_mod_cast hn
  have hnonneg : (0 : Rat) ≤ m := m.cast_nonneg
  have hnonneg' : (0 : Rat) ≤ n := n.cast_nonneg
  have hstep := step_le
  obtain ⟨c, hc, hlow, hhigh⟩ := hasValue_unit hm
  obtain ⟨d, hd, hlow', hhigh'⟩ := hasValue_unit hn
  obtain ⟨D, hD, hnear⟩ := hc.sub hd (abs_le.mpr ⟨by linarith, by linarith⟩)
  obtain ⟨hdown, hup⟩ := abs_le.mp hnear
  exact ⟨D, hD, by linarith, by linarith⟩

theorem sector_eq {r g b : Nat} (hr : r ≤ 255) (hg : g ≤ 255) (hb : b ≤ 255) (maximum : Float)
    {delta : Float} {D : Rat} (hdelta : HasValue delta D) (hD : 1 / 256 ≤ |D|) :
    ∃ z c, sector (unit r) (unit g) (unit b) maximum delta = .ok z ∧ HasValue z c ∧ |c| ≤ 600 := by
  have hstep := step_le
  have hoffset {m n : Nat} (hm : m ≤ 255) (hn : n ≤ 255) {y : Float} {v : Rat} (hy : HasValue y v)
      (hv : 0 ≤ v ∧ v ≤ 6) : ∃ x z c, quotient (unit m - unit n) delta = .ok x ∧ x + y = z ∧
        HasValue z c ∧ |c| ≤ 600 := by
    have hcast : (m : Rat) ≤ 255 := by exact_mod_cast hm
    have hcast' : (n : Rat) ≤ 255 := by exact_mod_cast hn
    have hnonneg : (0 : Rat) ≤ m := m.cast_nonneg
    have hnonneg' : (0 : Rat) ≤ n := n.cast_nonneg
    obtain ⟨d, hd, hdlow, hdhigh⟩ := hasValue_difference hm hn
    obtain ⟨x, c, hx, hc, hbound⟩ :=
      quotient_eq hd hdelta (abs_le.mpr ⟨by linarith, by linarith⟩) hD
    obtain ⟨hlow, hhigh⟩ := abs_le.mp hbound
    obtain ⟨c', hc', hnear⟩ := hc.add hy (abs_le.mpr ⟨by linarith [hv.1], by linarith [hv.2]⟩)
    obtain ⟨hlow', hhigh'⟩ := abs_le.mp hnear
    exact ⟨x, _, c', hx, rfl, hc', abs_le.mpr ⟨by linarith [hv.1], by linarith [hv.2]⟩⟩
  unfold sector
  split
  · have hturn : ∃ v, HasValue (if unit g < unit b then 6 else 0) v ∧ 0 ≤ v ∧ v ≤ 6 := by
      split
      · exact ⟨6, hasValue_ofNat (by decide), by norm_num, le_refl 6⟩
      · exact ⟨0, hasValue_zero, le_refl 0, by norm_num⟩
    obtain ⟨v, hv, hrange⟩ := hturn
    obtain ⟨x, z, c, hx, hz, hc, hbound⟩ := hoffset hg hb hv hrange
    refine ⟨z, c, ?_, hc, hbound⟩
    rw [hx, ← hz]
    rfl
  split
  · obtain ⟨x, z, c, hx, hz, hc, hbound⟩ :=
      hoffset hb hr (hasValue_ofNat (by decide) : HasValue 2 2) (by norm_num)
    refine ⟨z, c, ?_, hc, hbound⟩
    rw [hx, ← hz]
    rfl
  · obtain ⟨x, z, c, hx, hz, hc, hbound⟩ :=
      hoffset hr hg (hasValue_ofNat (by decide) : HasValue 4 4) (by norm_num)
    refine ⟨z, c, ?_, hc, hbound⟩
    rw [hx, ← hz]
    rfl

/-- Two different channels are apart. -/
theorem le_abs_sub {m n : Nat} (hne : m ≠ n) : 1 ≤ |(m : Rat) - n| := by
  rcases lt_or_gt_of_ne hne with hlt | hgt
  · have hcast : (m : Rat) + 1 ≤ n := by exact_mod_cast hlt
    exact le_abs.mpr (.inr (by linarith))
  · have hcast : (n : Rat) + 1 ≤ m := by exact_mod_cast hgt
    exact le_abs.mpr (.inl (by linarith))

/-- The components of whole channels are computed without an error, and none is large. -/
theorem exists_ofRgb {r g b : Nat} (hr : r ≤ 255) (hg : g ≤ 255) (hb : b ≤ 255) :
    ∃ x : Hsl Float, ofRgb ((Scalar.ofInt r / 255 : Float) * 255) ((Scalar.ofInt g / 255 : Float) * 255)
        ((Scalar.ofInt b / 255 : Float) * 255) = .ok x ∧
      Below 17 x.hue ∧ Below 17 x.saturation ∧ Below 17 x.lightness := by
  obtain ⟨i, hi, hmax⟩ := exists_pick greater_eq_or hr hg hb
  obtain ⟨j, hj, hmin⟩ := exists_pick smaller_eq_or hr hg hb
  have hcast : (i : Rat) ≤ 255 := by exact_mod_cast hi
  have hcast' : (j : Rat) ≤ 255 := by exact_mod_cast hj
  have hnonneg : (0 : Rat) ≤ i := i.cast_nonneg
  have hnonneg' : (0 : Rat) ≤ j := j.cast_nonneg
  have hstep := step_le
  have htwo : HasValue 2 2 := hasValue_ofNat (by decide)
  have hhundred : HasValue 100 100 := hasValue_ofNat (by decide)
  obtain ⟨u, hu, hulow, huhigh⟩ := hasValue_unit hi
  obtain ⟨v, hv, hvlow, hvhigh⟩ := hasValue_unit hj
  obtain ⟨A, hA, hnear⟩ := hu.add hv (abs_le.mpr ⟨by linarith, by linarith⟩)
  obtain ⟨hAlow, hAhigh⟩ := abs_le.mp hnear
  obtain ⟨L, hL, hnear⟩ := hasValue_quotient hA htwo (abs_le.mpr ⟨by linarith, by linarith⟩) (by norm_num)
  obtain ⟨hLlow, hLhigh⟩ := abs_le.mp hnear
  have hlightness : Below 17 ((unit i + unit j) / 2 * 100) :=
    below_product hL hhundred (abs_le.mpr ⟨by linarith, by linarith⟩)
  have hunit (n : Nat) : (Scalar.ofInt n / 255 : Float) * 255 / 255 = unit n := rfl
  unfold ofRgb
  simp only [hunit, hmax, hmin]
  split
  · have hnone : Below 17 ((0 : Float) * 100) := by decide +kernel
    have hzero : Below 17 (0 : Float) := by decide +kernel
    exact ⟨⟨0, 0 * 100, (unit i + unit j) / 2 * 100⟩, rfl, hzero, hnone, hlightness⟩
  · rename_i hdiffer
    have hne : i ≠ j := by
      rintro rfl
      exact hdiffer ((hu.beq_eq hu).trans (decide_eq_true rfl))
    obtain ⟨D, hD, hDlow, hDhigh⟩ := hasValue_difference hi hj
    have hapart : 1 / 256 ≤ |D| := by
      rcases le_abs.mp (le_abs_sub hne) with hup | hdown
      · exact le_abs.mpr (.inl (by linarith))
      · exact le_abs.mpr (.inr (by linarith))
    have hD2 : |D| ≤ 2 := abs_le.mpr ⟨by linarith, by linarith⟩
    have hspan : ∃ S, HasValue (if 1 / 2 < (unit i + unit j) / 2 then 2 - unit i - unit j
        else unit i + unit j) S ∧ 1 / 256 ≤ |S| := by
      have hsum : (1 : Rat) ≤ i + j ∧ (i : Rat) + j + 1 ≤ 510 := by
        refine ⟨?_, ?_⟩
        · exact_mod_cast (by omega : 1 ≤ i + j)
        · exact_mod_cast (by omega : i + j + 1 ≤ 510)
      split
      · obtain ⟨B, hB, hnear⟩ := htwo.sub hu (abs_le.mpr ⟨by linarith, by linarith⟩)
        obtain ⟨hBlow, hBhigh⟩ := abs_le.mp hnear
        obtain ⟨C, hC, hnear⟩ := hB.sub hv (abs_le.mpr ⟨by linarith, by linarith⟩)
        obtain ⟨hClow, hChigh⟩ := abs_le.mp hnear
        exact ⟨C, hC, le_abs.mpr (.inl (by linarith [hsum.2]))⟩
      · exact ⟨A, hA, le_abs.mpr (.inl (by linarith [hsum.1]))⟩
    obtain ⟨S, hS, hSapart⟩ := hspan
    obtain ⟨saturation, s, hsaturation, hs, hsbound⟩ := quotient_eq hD hS hD2 hSapart
    obtain ⟨sixths, h, hsixths, hh, hhbound⟩ := sector_eq hr hg hb (unit i) hD hapart
    obtain ⟨hslow, hshigh⟩ := abs_le.mp hsbound
    obtain ⟨hhlow, hhhigh⟩ := abs_le.mp hhbound
    refine ⟨⟨sixths * 60, saturation * 100, (unit i + unit j) / 2 * 100⟩, ?_, ?_, ?_, hlightness⟩
    · rw [hsaturation, hsixths]
      rfl
    · exact below_product hh (hasValue_ofNat (by decide) : HasValue 60 60)
        (abs_le.mpr ⟨by linarith, by linarith⟩)
    · exact below_product hs hhundred (abs_le.mpr ⟨by linarith, by linarith⟩)

end Hsl

end Swatch
