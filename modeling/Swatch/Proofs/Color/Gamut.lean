import Swatch.Proofs.Color.Reading
import Swatch.Proofs.Color.Strength
import Swatch.Proofs.Except

/-!
Every colour read from a text, over exact rationals, has whole channels up to 255 and an opacity up
to one.
-/

namespace Swatch

theorem Scalar.clamp_mem {x high : Rat} (hhigh : 0 ≤ high) :
    0 ≤ Scalar.clamp x 0 high ∧ Scalar.clamp x 0 high ≤ high := by
  rw [Scalar.clamp_rat]
  exact ⟨le_min (le_max_right x 0) hhigh, min_le_right _ _⟩

/-- A channel as it is counted in a text. -/
def IsByte (n : Int) : Prop :=
  0 ≤ n ∧ n ≤ 255

theorem isByte_rounded {x : Rat} (hx : 0 ≤ x ∧ x ≤ 1) : IsByte (Scalar.rounded (x * 255)) := by
  refine ⟨Scalar.rounded_nonneg (by linarith [hx.1]), Scalar.rounded_le ?_⟩
  push_cast
  linarith [hx.2]

namespace Hsl

theorem strength_mem {s l w : Rat} (hs : 0 ≤ s ∧ s ≤ 1) (hl : 0 ≤ l ∧ l ≤ 1) (hw : 0 ≤ w ∧ w ≤ 1) :
    0 ≤ strength s l w ∧ strength s l w ≤ 1 := by
  have hreach : 0 ≤ min l (1 - l) := le_min hl.1 (sub_nonneg.mpr hl.2)
  have hwave : |2 * w - 1| ≤ 1 := abs_le.mpr ⟨by linarith, by linarith⟩
  have hmove : |s * min l (1 - l) * (2 * w - 1)| ≤ min l (1 - l) := by
    refine le_trans (abs_mul_le_left hwave) ?_
    rw [abs_of_nonneg (mul_nonneg hs.1 hreach)]
    exact mul_le_of_le_one_left hreach hs.2
  obtain ⟨hdown, hup⟩ := abs_le.mp hmove
  have hdark : min l (1 - l) ≤ l := min_le_left _ _
  have hlight : min l (1 - l) ≤ 1 - l := min_le_right _ _
  unfold strength
  constructor <;> linarith

/-- Components in their ranges have channels in theirs. -/
theorem channels_clamped_rat (x : Hsl Rat) :
    ∃ r g b, x.clamped.channels = .ok (r, g, b) ∧ IsByte r ∧ IsByte g ∧ IsByte b := by
  obtain ⟨hh, hh'⟩ := @Scalar.clamp_mem x.hue 360 (by decide)
  obtain ⟨hs, hs'⟩ := @Scalar.clamp_mem x.saturation 100 (by decide)
  obtain ⟨hl, hl'⟩ := @Scalar.clamp_mem x.lightness 100 (by decide)
  have hbyte {turn : Rat} (hturn : -1 / 3 ≤ turn) :
      IsByte (Scalar.rounded (strength (x.clamped.saturation / 100) (x.clamped.lightness / 100)
        (wave (x.clamped.hue / 360 + turn)) * 255)) := by
    unfold clamped
    dsimp only
    refine isByte_rounded (strength_mem ⟨?_, ?_⟩ ⟨?_, ?_⟩ (wave_mem ?_)) <;> linarith
  have hred := @hbyte (1 / 3) (by norm_num)
  have hgreen := @hbyte 0 (by norm_num)
  have hblue := @hbyte (-(1 / 3)) (by norm_num)
  rw [add_zero] at hgreen
  rw [← sub_eq_add_neg] at hblue
  exact ⟨_, _, _, channels_eq _, hred, hgreen, hblue⟩

end Hsl

namespace Color

/-- A colour with three whole channels and an opacity between none and full. -/
structure HasBytes (c : Color Rat) (r g b : Nat) : Prop where
  red : r ≤ 255
  green : g ≤ 255
  blue : b ≤ 255
  alpha : 0 ≤ c.alpha ∧ c.alpha ≤ 1
  eq : c = ofChannels (r, g, b) c.alpha c.written

def InGamut (c : Color Rat) : Prop :=
  ∃ r g b, c.HasBytes r g b

theorem channels_ofChannels {r g b : Int} {alpha : Rat} {written : Format} :
    (ofChannels (r, g, b) alpha written).channels = .ok (r, g, b) := by
  have hback (n : Int) : (n : Rat) / 255 * 255 = n := div_mul_cancel₀ _ (by decide)
  have hnearest (n : Int) : Scalar.nearest ((Scalar.ofInt n : Rat) / 255 * 255) = .ok n := by
    rw [Scalar.nearest_rat]
    exact congrArg Except.ok ((congrArg Scalar.rounded (hback n)).trans (Scalar.rounded_intCast n))
  unfold channels
  simp only [ofChannels, hnearest]
  rfl

theorem HasBytes.channels {c : Color Rat} {r g b : Nat} (hc : c.HasBytes r g b) :
    c.channels = .ok ((r, g, b) : Int × Int × Int) := by
  rw [hc.eq]
  exact channels_ofChannels

/-! ### Readers -/

section Readers

variable {α : Type} [Scalar α] {N P : α → Prop} {c : Color α}

/-- A colour with three whole channels and an opacity of a kind. -/
structure HasChannels (P : α → Prop) (c : Color α) (r g b : Nat) : Prop where
  red : r ≤ 255
  green : g ≤ 255
  blue : b ≤ 255
  alpha : P c.alpha
  eq : c = ofChannels (r, g, b) c.alpha c.written

/-- An arithmetic that takes the numbers of a text, which are of a kind, to whole channels up to 255 and
to opacities of another kind. -/
structure IsTame (N P : α → Prop) : Prop where
  number : ∀ d, N (Scalar.ofDecimal d)
  full : P 1
  byte : ∀ a : Nat, a ≤ 255 → P (Scalar.ofInt a / 255)
  fraction : ∀ x, N x → P (Scalar.clamp x 0 1)
  percentage : ∀ x, N x → P (Scalar.clamp x 0 100 / 100)
  channel : ∀ x n, N x → Scalar.nearest (Scalar.clamp x 0 100 / 100 * 255) = .ok n → IsByte n
  components : ∀ x : Hsl α, N x.hue → N x.saturation → N x.lightness → ∀ r g b,
    x.clamped.channels = .ok (r, g, b) → IsByte r ∧ IsByte g ∧ IsByte b

theorem hasChannels_ofChannels {r g b : Int} {alpha : α} (written : Format) (hr : IsByte r)
    (hg : IsByte g) (hb : IsByte b) (halpha : P alpha) :
    ∃ r' g' b', HasChannels P (ofChannels (r, g, b) alpha written) r' g' b' := by
  obtain ⟨r, rfl⟩ := Int.eq_ofNat_of_zero_le hr.1
  obtain ⟨g, rfl⟩ := Int.eq_ofNat_of_zero_le hg.1
  obtain ⟨b, rfl⟩ := Int.eq_ofNat_of_zero_le hb.1
  exact ⟨r, g, b, Int.ofNat_le.mp hr.2, Int.ofNat_le.mp hg.2, Int.ofNat_le.mp hb.2, halpha, rfl⟩

theorem IsTame.leadingNumber? (h : IsTame N P) {cs : List Char} {x : α}
    (hx : leadingNumber? cs = some x) : N x := by
  unfold Color.leadingNumber? at hx
  split at hx
  · split at hx
    · cases hx
      exact h.number _
    · cases hx
  · cases hx

theorem IsTame.opacity (h : IsTame N P) (part : Option (List Char)) : P (opacity part) := by
  unfold Color.opacity
  split
  · exact h.full
  split
  · exact h.full
  · rename_i x hx
    split
    · exact h.percentage x (h.leadingNumber? hx)
    · exact h.fraction x (h.leadingNumber? hx)

theorem IsTame.isByte_channel? (h : IsTame N P) {part : List Char} {n : Int}
    (hn : channel? (α := α) part = .ok (some n)) : IsByte n := by
  unfold channel? at hn
  split at hn
  · split at hn
    · rename_i percent hpercent
      cases hround : Scalar.nearest (Scalar.clamp percent 0 100 / 100 * 255) with
      | error e =>
        rw [hround] at hn
        cases hn
      | ok m =>
        rw [hround] at hn
        cases hn
        exact h.channel percent _ (h.leadingNumber? hpercent) hround
    · cases hn
  · split at hn
    · split at hn
      · obtain ⟨m, -, hm⟩ := bind_eq_ok.mp hn
        cases hm
        constructor <;> omega
      · cases hn
    · cases hn

theorem IsTame.ofHex? (h : IsTame N P) {digits : List Char} (hc : ofHex? digits = some c) :
    ∃ r g b, HasChannels P c r g b := by
  simp only [Color.ofHex?, Option.bind_eq_bind, Option.bind_eq_some_iff] at hc
  obtain ⟨values, hvalues, pairs, hpairs, hc⟩ := hc
  have hlt : ∀ n ∈ pairs, n < 256 :=
    hexPairs_lt (fun n hn => (mem_of_mapM hvalues n hn).elim fun x hx => hexValue?_lt hx) hpairs
  have hbyte {n : Nat} (hn : n ∈ pairs) : IsByte n := by
    have hn256 := hlt n hn
    constructor <;> omega
  split at hc
  · cases hc
    exact hasChannels_ofChannels _ (hbyte (by simp)) (hbyte (by simp)) (hbyte (by simp)) h.full
  · rename_i r g b a
    cases hc
    exact hasChannels_ofChannels _ (hbyte (by simp)) (hbyte (by simp)) (hbyte (by simp))
      (h.byte a (Nat.le_of_lt_succ (hlt a (by simp))))
  · cases hc

theorem IsTame.ofRgbCall (h : IsTame N P) {text body : List Char}
    (hc : ofRgbCall text body = .ok (some c)) : ∃ r g b, HasChannels P c r g b := by
  unfold Color.ofRgbCall at hc
  dsimp only at hc
  split at hc
  · obtain ⟨red?, hred, hc⟩ := bind_eq_ok.mp hc
    obtain ⟨green?, hgreen, hc⟩ := bind_eq_ok.mp hc
    obtain ⟨blue?, hblue, hc⟩ := bind_eq_ok.mp hc
    split at hc
    · cases hc
      exact hasChannels_ofChannels _ (h.isByte_channel? hred) (h.isByte_channel? hgreen)
        (h.isByte_channel? hblue) (h.opacity _)
    · cases hc
  · cases hc

theorem IsTame.ofHsl (h : IsTame N P) {x : Hsl α} {alpha : α} {written : Format} (hhue : N x.hue)
    (hsaturation : N x.saturation) (hlightness : N x.lightness) (halpha : P alpha)
    (hc : some <$> ofHsl x alpha written = .ok (some c)) : ∃ r g b, HasChannels P c r g b := by
  cases hchannels : x.clamped.channels with
  | error e =>
    rw [Color.ofHsl, hchannels] at hc
    cases hc
  | ok rgb =>
    obtain ⟨r, g, b⟩ := rgb
    obtain ⟨hr, hg, hb⟩ := h.components x hhue hsaturation hlightness r g b hchannels
    rw [Color.ofHsl, hchannels] at hc
    cases hc
    exact hasChannels_ofChannels written hr hg hb halpha

theorem IsTame.ofHslCall (h : IsTame N P) {text body : List Char}
    (hc : ofHslCall text body = .ok (some c)) : ∃ r g b, HasChannels P c r g b := by
  unfold Color.ofHslCall at hc
  dsimp only at hc
  split at hc
  · split at hc
    · rename_i hhue hsaturation hlightness
      exact h.ofHsl (h.leadingNumber? hhue) (h.leadingNumber? hsaturation)
        (h.leadingNumber? hlightness) (h.opacity _) hc
    · cases hc
  · cases hc

theorem IsTame.ofCompact (h : IsTame N P) {text : List Char} (hc : ofCompact text = .ok (some c)) :
    ∃ r g b, HasChannels P c r g b := by
  unfold Color.ofCompact at hc
  split at hc
  · exact h.ofHsl (h.number _) (h.number _) (h.number _) (h.opacity _) hc
  · cases hc

theorem attempt_of_ofChars? {cs : List Char} (hc : ofChars? cs = some c) :
    attempt cs = .ok (some c) := by
  unfold ofChars? at hc
  cases hattempt : (attempt cs : Except ArithmeticError (Option (Color α))) with
  | error e =>
    rw [hattempt] at hc
    cases hc
  | ok found =>
    rw [hattempt] at hc
    exact congrArg Except.ok hc

/-- What is read has whole channels up to 255. -/
theorem IsTame.ofChars? (h : IsTame N P) {cs : List Char} (hc : ofChars? cs = some c) :
    ∃ r g b, HasChannels P c r g b := by
  have hread := attempt_of_ofChars? hc
  unfold attempt ofTrimmed at hread
  split at hread
  · exact h.ofHex? (Except.ok.inj hread)
  split at hread
  · exact h.ofRgbCall hread
  split at hread
  · exact h.ofHslCall hread
  · exact h.ofCompact hread

end Readers

/-- The arithmetic of exact rationals. -/
theorem isTame_rat : IsTame (fun _ : Rat => True) fun alpha => 0 ≤ alpha ∧ alpha ≤ 1 where
  number _ := trivial
  full := ⟨by decide, le_refl 1⟩
  byte a ha := by
    have hcast : ((a : Int) : Rat) ≤ 255 := by exact_mod_cast ha
    have hnonneg : (0 : Rat) ≤ ((a : Int) : Rat) := by positivity
    change 0 ≤ ((a : Int) : Rat) / 255 ∧ ((a : Int) : Rat) / 255 ≤ 1
    constructor <;> linarith
  fraction x _ := Scalar.clamp_mem (by decide)
  percentage x _ := by
    obtain ⟨hlow, hhigh⟩ := @Scalar.clamp_mem x 100 (by decide)
    constructor <;> linarith
  channel x n _ hn := by
    obtain ⟨hlow, hhigh⟩ := @Scalar.clamp_mem x 100 (by decide)
    rw [Scalar.nearest_rat] at hn
    cases hn
    exact isByte_rounded ⟨by linarith, by linarith⟩
  components x _ _ _ r g b hchannels := by
    obtain ⟨r', g', b', hclamped, hr, hg, hb⟩ := Hsl.channels_clamped_rat x
    rw [hclamped] at hchannels
    cases hchannels
    exact ⟨hr, hg, hb⟩

/-- What is read can be shown as it is. -/
theorem inGamut_of_ofChars? {cs : List Char} {c : Color Rat} (hc : ofChars? cs = some c) : c.InGamut := by
  obtain ⟨r, g, b, hchannels⟩ := isTame_rat.ofChars? hc
  exact ⟨r, g, b, hchannels.red, hchannels.green, hchannels.blue, hchannels.alpha, hchannels.eq⟩

end Color

end Swatch
