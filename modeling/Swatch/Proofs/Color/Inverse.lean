import Mathlib.Tactic.NormNum
import Swatch.Proofs.Color.Strength

/-!
From red, green and blue to hue, saturation and lightness and back, over exact rationals. Main
statement: what comes back is what went in, rounded, for whole channels also when the three components
are rounded on the way.
-/

namespace Swatch.Hsl

/-! ### The wave by sixths of a turn -/

section Sixths

variable {y : Rat}

theorem wave_sixth (hlow : 0 ≤ y) (hhigh : y ≤ 6) : wave (y / 6) = tent (y / 6) := by
  have hwrap : wrap (y / 6) = y / 6 := wrap_of_mem (by linarith) (by linarith)
  rw [wave_eq_tent (by linarith), hwrap]

theorem wave_sixth_rising (hlow : 0 ≤ y) (hhigh : y ≤ 1) : wave (y / 6) = y := by
  rw [wave_sixth hlow (by linarith), tent_rising (by linarith) (by linarith)]
  ring

theorem wave_sixth_full (hlow : 1 ≤ y) (hhigh : y ≤ 3) : wave (y / 6) = 1 := by
  rw [wave_sixth (by linarith) (by linarith), tent_full (by linarith) (by linarith)]

theorem wave_sixth_falling (hlow : 3 ≤ y) (hhigh : y ≤ 4) : wave (y / 6) = 4 - y := by
  rw [wave_sixth (by linarith) (by linarith), tent_falling (by linarith) (by linarith)]
  ring

theorem wave_sixth_none (hlow : 4 ≤ y) (hhigh : y ≤ 6) : wave (y / 6) = 0 := by
  rw [wave_sixth (by linarith) hhigh, tent_of_ge (by linarith)]

/-- One turn further the wave is the same. -/
theorem wave_sixth_add_six (hlow : -2 ≤ y) (hhigh : y ≤ 2) : wave ((y + 6) / 6) = wave (y / 6) := by
  rw [wave_eq (by linarith), wave_eq (by linarith), @tent_of_ge ((y + 6) / 6 + 1) (by linarith),
    @tent_of_le (y / 6 - 1) (by linarith), add_div, div_self (by decide), add_sub_cancel_right]
  ring

end Sixths

/-! ### The hue of three channels -/

/-- A place on the circle, in sixths of a turn, at which three channels are, given their least
strength and their span. -/
structure IsAt (least span x r g b : Rat) : Prop where
  mem : 0 ≤ x ∧ x ≤ 6
  red : least + span * wave ((x + 2) / 6) = r
  green : least + span * wave (x / 6) = g
  blue : least + span * wave ((x - 2) / 6) = b

section Places

variable {least span z : Rat}

theorem wave_sixth_before (hz : 0 ≤ z ∧ z ≤ 2) : wave (-z / 6) = 0 := by
  rw [← wave_sixth_add_six (by linarith) (by linarith), wave_sixth_none (by linarith) (by linarith)]

theorem isAt_red_green (hz : 0 ≤ z ∧ z ≤ 1) :
    IsAt least span z (least + span) (least + span * z) least := by
  refine ⟨⟨hz.1, by linarith⟩, ?_, ?_, ?_⟩
  · rw [wave_sixth_full (by linarith) (by linarith), mul_one]
  · rw [wave_sixth_rising hz.1 hz.2]
  · have hbefore : wave ((z - 2) / 6) = 0 := by
      rw [← neg_sub]
      exact wave_sixth_before ⟨by linarith, by linarith⟩
    rw [hbefore, mul_zero, add_zero]

theorem isAt_green_red (hz : 0 ≤ z ∧ z ≤ 1) :
    IsAt least span (2 - z) (least + span * z) (least + span) least := by
  refine ⟨⟨by linarith, by linarith⟩, ?_, ?_, ?_⟩
  · rw [wave_sixth_falling (by linarith) (by linarith)]
    ring
  · rw [wave_sixth_full (by linarith) (by linarith), mul_one]
  · rw [sub_sub_cancel_left, wave_sixth_before ⟨hz.1, by linarith⟩, mul_zero, add_zero]

theorem isAt_green_blue (hz : 0 ≤ z ∧ z ≤ 1) :
    IsAt least span (2 + z) least (least + span) (least + span * z) := by
  refine ⟨⟨by linarith, by linarith⟩, ?_, ?_, ?_⟩
  · rw [wave_sixth_none (by linarith) (by linarith), mul_zero, add_zero]
  · rw [wave_sixth_full (by linarith) (by linarith), mul_one]
  · rw [add_sub_cancel_left, wave_sixth_rising hz.1 hz.2]

theorem isAt_blue_green (hz : 0 ≤ z ∧ z ≤ 1) :
    IsAt least span (4 - z) least (least + span * z) (least + span) := by
  refine ⟨⟨by linarith, by linarith⟩, ?_, ?_, ?_⟩
  · rw [wave_sixth_none (by linarith) (by linarith), mul_zero, add_zero]
  · rw [wave_sixth_falling (by linarith) (by linarith), sub_sub_cancel]
  · rw [wave_sixth_full (by linarith) (by linarith), mul_one]

theorem isAt_blue_red (hz : 0 ≤ z ∧ z ≤ 1) :
    IsAt least span (4 + z) (least + span * z) least (least + span) := by
  refine ⟨⟨by linarith, by linarith⟩, ?_, ?_, ?_⟩
  · have hturn : 4 + z + 2 = z + 6 := by ring
    rw [hturn, wave_sixth_add_six (by linarith) (by linarith), wave_sixth_rising hz.1 hz.2]
  · rw [wave_sixth_none (by linarith) (by linarith), mul_zero, add_zero]
  · rw [wave_sixth_full (by linarith) (by linarith), mul_one]

theorem isAt_red_blue (hz : 0 ≤ z ∧ z ≤ 1) :
    IsAt least span (6 - z) (least + span) least (least + span * z) := by
  refine ⟨⟨by linarith, by linarith⟩, ?_, ?_, ?_⟩
  · have hturn : 6 - z + 2 = (2 - z) + 6 := by ring
    rw [hturn, wave_sixth_add_six (by linarith) (by linarith),
      wave_sixth_full (by linarith) (by linarith), mul_one]
  · rw [wave_sixth_none (by linarith) (by linarith), mul_zero, add_zero]
  · rw [wave_sixth_falling (by linarith) (by linarith)]
    ring

end Places

theorem quotient_rat {x y : Rat} (hy : y ≠ 0) : quotient x y = .ok (x / y) := by
  rw [quotient, if_neg (by simpa using hy)]

/-- Where a channel is between the least and the greatest one. -/
theorem exists_fraction {least span v : Rat} (hspan : 0 < span) (hlow : least ≤ v)
    (hhigh : v ≤ least + span) :
    0 ≤ (v - least) / span ∧ (v - least) / span ≤ 1 ∧ least + span * ((v - least) / span) = v := by
  refine ⟨div_nonneg (by linarith) hspan.le, (div_le_one hspan).mpr (by linarith), ?_⟩
  rw [mul_div_cancel₀ _ hspan.ne']
  ring

/-- The hue that the greatest channel gives is the place at which the three channels are. -/
theorem isAt_sector {r g b least span : Rat} (hspan : 0 < span)
    (hleast : least ≤ r ∧ least ≤ g ∧ least ≤ b) (hone : least = r ∨ least = g ∨ least = b)
    (hmost : r ≤ least + span ∧ g ≤ least + span ∧ b ≤ least + span)
    (htop : least + span = r ∨ least + span = g ∨ least + span = b) :
    ∃ x, sector r g b (least + span) span = .ok x ∧ IsAt least span x r g b := by
  obtain ⟨hr0, hr1, hr⟩ := exists_fraction hspan hleast.1 hmost.1
  obtain ⟨hg0, hg1, hg⟩ := exists_fraction hspan hleast.2.1 hmost.2.1
  obtain ⟨hb0, hb1, hb⟩ := exists_fraction hspan hleast.2.2 hmost.2.2
  have hsame {v : Rat} (hv : least ≤ v) (hv' : v ≤ r ∧ v ≤ g ∧ v ≤ b) : least = v := by
    obtain ⟨hvr, hvg, hvb⟩ := hv'
    rcases hone with h | h | h <;> linarith
  unfold sector
  simp only [quotient_rat hspan.ne']
  split
  · rename_i hred
    obtain rfl : least + span = r := beq_iff_eq.mp hred
    rcases lt_or_ge g b with hgb | hbg
    · obtain rfl : least = g := hsame hleast.2.1 ⟨hmost.2.1, le_refl g, hgb.le⟩
      refine ⟨6 - (b - least) / span, ?_, ?_⟩
      · change Except.ok ((least - b) / span + if least < b then 6 else 0) = _
        rw [if_pos hgb, ← neg_sub b least, neg_div, neg_add_eq_sub]
      · simpa only [hb] using @isAt_red_blue least span _ ⟨hb0, hb1⟩
    · obtain rfl : least = b := hsame hleast.2.2 ⟨hmost.2.2, hbg, le_refl b⟩
      refine ⟨(g - least) / span, ?_, ?_⟩
      · change Except.ok ((g - least) / span + if g < least then 6 else 0) = _
        rw [if_neg (not_lt.mpr hbg), add_zero]
      · simpa only [hg] using @isAt_red_green least span _ ⟨hg0, hg1⟩
  · rename_i hred
    split
    · rename_i hgreen
      obtain rfl : least + span = g := beq_iff_eq.mp hgreen
      rcases le_total b r with hbr | hrb
      · obtain rfl : least = b := hsame hleast.2.2 ⟨hbr, hmost.2.2, le_refl b⟩
        refine ⟨2 - (r - least) / span, ?_, ?_⟩
        · change Except.ok ((least - r) / span + 2) = _
          rw [← neg_sub r least, neg_div, neg_add_eq_sub]
        · simpa only [hr] using @isAt_green_red least span _ ⟨hr0, hr1⟩
      · obtain rfl : least = r := hsame hleast.1 ⟨le_refl r, hmost.1, hrb⟩
        refine ⟨2 + (b - least) / span, ?_, ?_⟩
        · change Except.ok ((b - least) / span + 2) = _
          rw [add_comm]
        · simpa only [hb] using @isAt_green_blue least span _ ⟨hb0, hb1⟩
    · rename_i hgreen
      obtain rfl : least + span = b := by
        rcases htop with h | h | h
        · exact absurd (beq_iff_eq.mpr h) hred
        · exact absurd (beq_iff_eq.mpr h) hgreen
        · exact h
      rcases le_total r g with hrg | hgr
      · obtain rfl : least = r := hsame hleast.1 ⟨le_refl r, hrg, hmost.1⟩
        refine ⟨4 - (g - least) / span, ?_, ?_⟩
        · change Except.ok ((least - g) / span + 4) = _
          rw [← neg_sub g least, neg_div, neg_add_eq_sub]
        · simpa only [hg] using @isAt_blue_green least span _ ⟨hg0, hg1⟩
      · obtain rfl : least = g := hsame hleast.2.1 ⟨hgr, le_refl g, hmost.2.1⟩
        refine ⟨4 + (r - least) / span, ?_, ?_⟩
        · change Except.ok ((r - least) / span + 4) = _
          rw [add_comm]
        · simpa only [hr] using @isAt_blue_red least span _ ⟨hr0, hr1⟩

/-- The hue stays below a full turn: where it would come to one, the greatest channel is red, and green
and blue are alike. -/
theorem sector_lt {r g b least span x : Rat} (hspan : 0 < span)
    (hleast : least ≤ r ∧ least ≤ g ∧ least ≤ b)
    (hmost : r ≤ least + span ∧ g ≤ least + span ∧ b ≤ least + span)
    (hx : sector r g b (least + span) span = .ok x) : x < 6 := by
  have hpart {v w : Rat} (hv : v ≤ least + span) (hw : least ≤ w) : (v - w) / span ≤ 1 :=
    (div_le_one hspan).mpr (by linarith)
  unfold sector at hx
  simp only [quotient_rat hspan.ne'] at hx
  split at hx
  · obtain rfl : (g - b) / span + (if g < b then 6 else 0) = x := Except.ok.inj hx
    split
    · rename_i hgb
      have hneg : (g - b) / span < 0 := div_neg_of_neg_of_pos (sub_neg.mpr hgb) hspan
      linarith
    · linarith [hpart hmost.2.1 hleast.2.2]
  · split at hx
    · obtain rfl : (b - r) / span + 2 = x := Except.ok.inj hx
      linarith [hpart hmost.2.2 hleast.1]
    · obtain rfl : (r - g) / span + 4 = x := Except.ok.inj hx
      linarith [hpart hmost.1 hleast.2.1]

/-! ### Saturation and lightness -/

/-- Hue, saturation and lightness in their ranges, with the channels that they stand for. -/
structure Shows (x : Hsl Rat) (r g b : Rat) : Prop where
  hue : 0 ≤ x.hue ∧ x.hue ≤ 360
  saturation : 0 ≤ x.saturation ∧ x.saturation ≤ 100
  lightness : 0 ≤ x.lightness ∧ x.lightness ≤ 100
  red : strength (x.saturation / 100) (x.lightness / 100) (wave (x.hue / 360 + 1 / 3)) = r
  green : strength (x.saturation / 100) (x.lightness / 100) (wave (x.hue / 360)) = g
  blue : strength (x.saturation / 100) (x.lightness / 100) (wave (x.hue / 360 - 1 / 3)) = b

theorem shows_of_isAt {least span x s l r g b : Rat} (hat : IsAt least span x r g b)
    (hs : 0 ≤ s ∧ s ≤ 1) (hl : 0 ≤ l ∧ l ≤ 1) (hspan : s * min l (1 - l) = span / 2)
    (hleast : l - span / 2 = least) : Shows ⟨x * 60, s * 100, l * 100⟩ r g b := by
  have hstrength (w : Rat) : strength s l w = least + span * w := by
    rw [strength, hspan, ← hleast]
    ring
  have hhue : x * 60 / 360 = x / 6 := by ring
  have hnext : x / 6 + 1 / 3 = (x + 2) / 6 := by ring
  have hlast : x / 6 - 1 / 3 = (x - 2) / 6 := by ring
  have hhundred (y : Rat) : y * 100 / 100 = y := mul_div_cancel_right₀ y (by decide)
  refine ⟨⟨?_, ?_⟩, ⟨?_, ?_⟩, ⟨?_, ?_⟩, ?_, ?_, ?_⟩
  · linarith [hat.mem.1]
  · linarith [hat.mem.2]
  · linarith [hs.1]
  · linarith [hs.2]
  · linarith [hl.1]
  · linarith [hl.2]
  · rw [hhundred, hhundred, hstrength, hhue, hnext, hat.red]
  · rw [hhundred, hhundred, hstrength, hhue, hat.green]
  · rw [hhundred, hhundred, hstrength, hhue, hlast, hat.blue]

/-- The saturation that is asked for spans the channels, whichever branch gives it. -/
theorem span_saturation {least span : Rat} (hspan : 0 < span) (hleast : 0 ≤ least)
    (hmost : least + span ≤ 1) :
    ∃ s, quotient span (if 1 / 2 < (least + span + least) / 2 then 2 - (least + span) - least
        else least + span + least) = .ok s ∧ (0 ≤ s ∧ s ≤ 1) ∧
      s * min ((least + span + least) / 2) (1 - (least + span + least) / 2) = span / 2 := by
  split
  · rename_i hlight
    have hpos : 0 < 2 - (least + span) - least := by linarith
    have hle : span / (2 - (least + span) - least) ≤ 1 := (div_le_one hpos).mpr (by linarith)
    refine ⟨_, quotient_rat hpos.ne', ⟨div_nonneg hspan.le hpos.le, hle⟩, ?_⟩
    have hhalf : 1 - (least + span + least) / 2 = (2 - (least + span) - least) / 2 := by ring
    rw [min_eq_right (by linarith), hhalf, ← mul_div_assoc, div_mul_cancel₀ _ hpos.ne']
  · rename_i hdark
    have hpos : 0 < least + span + least := by linarith
    have hle : span / (least + span + least) ≤ 1 := (div_le_one hpos).mpr (by linarith)
    refine ⟨_, quotient_rat hpos.ne', ⟨div_nonneg hspan.le hpos.le, hle⟩, ?_⟩
    rw [min_eq_left (by linarith), ← mul_div_assoc, div_mul_cancel₀ _ hpos.ne']

/-- Every colour has a hue below a full turn, a saturation and a lightness, and they stand for it. -/
theorem ofRgb_rat {r g b : Rat} (hr : 0 ≤ r ∧ r ≤ 1) (hg : 0 ≤ g ∧ g ≤ 1) (hb : 0 ≤ b ∧ b ≤ 1) :
    ∃ x, ofRgb (r * 255) (g * 255) (b * 255) = .ok x ∧ Shows x r g b ∧ x.hue < 360 := by
  have hpart (y : Rat) : y * 255 / 255 = y := mul_div_cancel_right₀ y (by decide)
  unfold ofRgb
  simp only [hpart, Scalar.greater_rat, Scalar.smaller_rat]
  have hmost : r ≤ max (max r g) b ∧ g ≤ max (max r g) b ∧ b ≤ max (max r g) b := by simp
  have hleast : min (min r g) b ≤ r ∧ min (min r g) b ≤ g ∧ min (min r g) b ≤ b := by simp
  have htop : max (max r g) b = r ∨ max (max r g) b = g ∨ max (max r g) b = b := by
    rcases max_choice (max r g) b with h | h
    · rw [h]
      exact (max_choice r g).imp id .inl
    · exact .inr (.inr h)
  have hone : min (min r g) b = r ∨ min (min r g) b = g ∨ min (min r g) b = b := by
    rcases min_choice (min r g) b with h | h
    · rw [h]
      exact (min_choice r g).imp id .inl
    · exact .inr (.inr h)
  generalize max (max r g) b = most at hmost htop
  generalize min (min r g) b = least at hleast hone
  have hlow : 0 ≤ least := by rcases hone with h | h | h <;> linarith
  have hhigh : most ≤ 1 := by rcases htop with h | h | h <;> linarith
  split
  · rename_i hgray
    obtain rfl : most = least := beq_iff_eq.mp hgray
    refine ⟨_, rfl, ?_⟩
    have hat : IsAt most 0 0 r g b := by
      refine ⟨⟨le_refl 0, by decide⟩, ?_, ?_, ?_⟩ <;> rw [zero_mul, add_zero] <;> linarith
    have hshows := shows_of_isAt hat (s := 0) (l := (most + most) / 2) ⟨le_refl 0, by decide⟩
      ⟨by linarith, by linarith⟩ (by rw [zero_mul, zero_div]) (by linarith)
    rw [zero_mul] at hshows
    have hhue : (0 : Rat) < 360 := by decide
    exact ⟨hshows, hhue⟩
  · rename_i hcolored
    have hne : most ≠ least := fun h => hcolored (beq_iff_eq.mpr h)
    have hspan : 0 < most - least := by
      have hle : least ≤ most := le_trans hleast.1 hmost.1
      exact sub_pos.mpr (lt_of_le_of_ne hle (Ne.symm hne))
    obtain ⟨span, rfl⟩ : ∃ span, most = least + span := ⟨most - least, by ring⟩
    rw [add_sub_cancel_left] at hspan ⊢
    obtain ⟨x, hx, hat⟩ := isAt_sector hspan hleast hone hmost htop
    obtain ⟨s, hs, hs01, hreach⟩ := span_saturation hspan hlow hhigh
    have hlt := sector_lt hspan hleast hmost hx
    have hhue : x * 60 < 360 := by linarith
    rw [hs, hx]
    exact ⟨_, rfl, shows_of_isAt hat hs01 ⟨by linarith, by linarith⟩ hreach (by linarith), hhue⟩

/-- Over exact rationals every colour, its channels whole or not, has a hue below a full turn, a
saturation and a lightness, found without a division by zero, and the channels that they stand for are
its own, rounded. -/
theorem channels_ofRgb {r g b : Rat} (hr : 0 ≤ r ∧ r ≤ 255) (hg : 0 ≤ g ∧ g ≤ 255)
    (hb : 0 ≤ b ∧ b ≤ 255) :
    ∃ x red green blue, ofRgb r g b = .ok x ∧ (0 ≤ x.hue ∧ x.hue < 360) ∧
      (0 ≤ x.saturation ∧ x.saturation ≤ 100) ∧ (0 ≤ x.lightness ∧ x.lightness ≤ 100) ∧
      Scalar.nearest r = .ok red ∧ Scalar.nearest g = .ok green ∧ Scalar.nearest b = .ok blue ∧
      x.channels = .ok (red, green, blue) := by
  have hpart {v : Rat} (hv : 0 ≤ v ∧ v ≤ 255) : 0 ≤ v / 255 ∧ v / 255 ≤ 1 :=
    ⟨div_nonneg hv.1 (by decide), (div_le_one (by decide)).mpr hv.2⟩
  have hwhole (v : Rat) : v / 255 * 255 = v := div_mul_cancel₀ v (by decide)
  obtain ⟨x, hx, hshows, hhue⟩ := ofRgb_rat (hpart hr) (hpart hg) (hpart hb)
  rw [hwhole, hwhole, hwhole] at hx
  have hchannels := channels_eq x
  dsimp only at hchannels
  rw [hshows.red, hshows.green, hshows.blue, hwhole, hwhole, hwhole] at hchannels
  exact ⟨x, _, _, _, hx, ⟨hshows.hue.1, hhue⟩, hshows.saturation, hshows.lightness,
    Scalar.nearest_rat r, Scalar.nearest_rat g, Scalar.nearest_rat b, hchannels⟩

/-- A red a little towards violet, with channels halfway between whole ones. -/
theorem channels_ofRgb_halves :
    (0 ≤ (509 / 2 : Rat) ∧ (509 / 2 : Rat) ≤ 255) ∧ (0 ≤ (1 / 3 : Rat) ∧ (1 / 3 : Rat) ≤ 255) ∧
      (0 ≤ (1 / 2 : Rat) ∧ (1 / 2 : Rat) ≤ 255) ∧
      ∃ x, ofRgb (509 / 2 : Rat) (1 / 3) (1 / 2) = .ok x ∧ x.hue < 360 ∧
        x.channels = .ok (255, 0, 1) := by
  have hr : 0 ≤ (509 / 2 : Rat) ∧ (509 / 2 : Rat) ≤ 255 := by norm_num
  have hg : 0 ≤ (1 / 3 : Rat) ∧ (1 / 3 : Rat) ≤ 255 := by norm_num
  have hb : 0 ≤ (1 / 2 : Rat) ∧ (1 / 2 : Rat) ≤ 255 := by norm_num
  obtain ⟨x, red, green, blue, hx, hhue, -, -, hred, hgreen, hblue, hchannels⟩ :=
    channels_ofRgb hr hg hb
  obtain rfl : (255 : Int) = red := Except.ok.inj (Eq.trans (by decide +kernel) hred)
  obtain rfl : (0 : Int) = green := Except.ok.inj (Eq.trans (by decide +kernel) hgreen)
  obtain rfl : (1 : Int) = blue := Except.ok.inj (Eq.trans (by decide +kernel) hblue)
  exact ⟨hr, hg, hb, x, hx, hhue.2, hchannels⟩

/-! ### Rounding on the way -/

/-- Components in their ranges, each off by half a hundredth at most. -/
structure IsNear (x' x : Hsl Rat) : Prop where
  hue : 0 ≤ x'.hue ∧ x'.hue ≤ 360
  saturation : 0 ≤ x'.saturation ∧ x'.saturation ≤ 100
  lightness : 0 ≤ x'.lightness ∧ x'.lightness ≤ 100
  abs_hue : |x'.hue - x.hue| ≤ 1 / 200
  abs_saturation : |x'.saturation - x.saturation| ≤ 1 / 200
  abs_lightness : |x'.lightness - x.lightness| ≤ 1 / 200

theorem clamped_of_isNear {x' x : Hsl Rat} (hnear : IsNear x' x) : x'.clamped = x' := by
  have hclamp {y high : Rat} (hy : 0 ≤ y ∧ y ≤ high) : Scalar.clamp y 0 high = y := by
    rw [Scalar.clamp_rat, max_eq_left hy.1, min_eq_left hy.2]
  rw [clamped, hclamp hnear.hue, hclamp hnear.saturation, hclamp hnear.lightness]

theorem abs_div_sub_div {x y z : Rat} (hz : 0 < z) : |x / z - y / z| = |x - y| / z := by
  rw [← sub_div, abs_div, abs_of_pos hz]

/-- Near components have the same whole channels. -/
theorem rounded_strength_eq {x' x : Hsl Rat} {r g b : Rat} {n : Int} {turn : Rat}
    (hshows : Shows x r g b) (hnear : IsNear x' x) (hturn : -1 / 3 ≤ turn)
    (hn : strength (x.saturation / 100) (x.lightness / 100) (wave (x.hue / 360 + turn)) = n / 255) :
    Scalar.rounded (strength (x'.saturation / 100) (x'.lightness / 100)
      (wave (x'.hue / 360 + turn)) * 255) = n := by
  have hplace : -1 ≤ x.hue / 360 + turn := by linarith [hshows.hue.1]
  have hplace' : -1 ≤ x'.hue / 360 + turn := by linarith [hnear.hue.1]
  have hwave := abs_wave_sub_le hplace' hplace
  have hstrength := @abs_strength_sub_le (x'.saturation / 100) (x.saturation / 100)
    (x'.lightness / 100) (x.lightness / 100) (wave (x'.hue / 360 + turn))
    (wave (x.hue / 360 + turn))
    (abs_le.mpr ⟨by linarith [hnear.saturation.1], by linarith [hnear.saturation.2]⟩)
    ⟨by linarith [hnear.lightness.1], by linarith [hnear.lightness.2]⟩
    ⟨by linarith [hshows.lightness.1], by linarith [hshows.lightness.2]⟩ (wave_mem hplace)
  rw [add_sub_add_right_eq_sub, abs_div_sub_div (by decide)] at hwave
  rw [abs_div_sub_div (by decide), abs_div_sub_div (by decide), hn] at hstrength
  refine Scalar.rounded_eq ?_
  generalize strength (x'.saturation / 100) (x'.lightness / 100) (wave (x'.hue / 360 + turn)) = y
    at hstrength
  have hscaled : |y * 255 - n| = |y - n / 255| * 255 := by
    have hpos : (0 : Rat) < 255 := by decide
    rw [← abs_of_pos hpos, ← abs_mul, abs_of_pos hpos, sub_mul, div_mul_cancel₀ _ hpos.ne']
  rw [hscaled]
  linarith [hnear.abs_hue, hnear.abs_saturation, hnear.abs_lightness]

theorem channels_of_isNear {x' x : Hsl Rat} {r g b : Int}
    (hshows : Shows x (r / 255) (g / 255) (b / 255)) (hnear : IsNear x' x) :
    x'.clamped.channels = .ok (r, g, b) := by
  have hgreen := hshows.green
  rw [← add_zero (x.hue / 360)] at hgreen
  have hblue := hshows.blue
  rw [sub_eq_add_neg] at hblue
  have hg := rounded_strength_eq hshows hnear (by linarith) hgreen
  have hb := rounded_strength_eq hshows hnear (by linarith) hblue
  rw [add_zero] at hg
  rw [← sub_eq_add_neg] at hb
  rw [clamped_of_isNear hnear, channels_eq]
  dsimp only
  rw [rounded_strength_eq hshows hnear (by linarith) hshows.red, hg, hb]

end Swatch.Hsl
