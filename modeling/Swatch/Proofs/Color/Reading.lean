import Swatch.Color.Reader
import Swatch.Color.Writer
import Swatch.Proofs.Number.Finite

/-!
Reading a colour over doubles meets no error of arithmetic, and what is read has a canonical text:
every number on the way is finite.
-/

namespace Swatch

open Binary64

/-! ### Numbers in a text -/

theorem Scalar.below_nearestHundredth {k : Nat} {x : Float} (hx : Below k x) (hk : k ≤ 200) :
    ∃ y : Float, Scalar.nearestHundredth x = .ok y ∧ Below 1024 y := by
  have hhundred : Below 7 (100 : Float) := by decide
  obtain ⟨n, hn, hlt⟩ := @nearest_of_below (k + 8) (x * 100)
    ((below_mul hx hhundred (by omega) (by omega)).mono (by omega)) (by omega)
  have hten : n.natAbs < 10 ^ (k + 8 + 2) := lt_of_lt_of_le hlt (Nat.pow_le_pow_left (by decide) _)
  have hfinite : (Decimal.hundredths n).isFinite = true :=
    isFinite_of_lt (Nat.succ_pos _) hten (by change ((k + 8 + 2 : Nat) : Int) + -2 < 300; omega)
  refine ⟨_, ?_, below_nearest hfinite⟩
  rw [Scalar.nearestHundredth, hn]
  rfl

theorem Scalar.text_of_below {k : Nat} {x : Float} (hx : Below k x) : ∃ s, Scalar.text x = .ok s := by
  obtain ⟨n, hn, -⟩ := truncate_of_below hx
  rw [Scalar.text, hn]
  exact ⟨_, rfl⟩

/-! ### Hue, saturation and lightness -/

namespace Hsl

theorem below_wrap {t : Float} (ht : Below 4 t) : Below 8 (wrap t) := by
  have hone : Below 1 (1 : Float) := by decide
  have hraised : Below 6 (if t < 0 then t + 1 else t) := by
    split
    · exact below_add ht (hone.mono (by decide)) (by decide) (by decide)
    · exact ht.mono (by decide)
  unfold wrap
  dsimp only
  generalize (if t < 0 then t + 1 else t) = u at hraised
  split
  · exact below_sub hraised (hone.mono (by decide)) (by decide) (by decide)
  · exact hraised.mono (by decide)

theorem below_channelAt {p q t : Float} (hp : Below 9 p) (hq : Below 7 q) (ht : Below 4 t) :
    Below 28 (channelAt p q t) := by
  have hwrap := below_wrap ht
  have hsix : Below 3 (6 : Float) := by decide
  have hthirds : Below 0 ((2 : Float) / 3) := by decide
  have hspan : Below 11 (q - p) := below_sub (hq.mono (by decide)) hp (by decide) (by decide)
  unfold channelAt
  dsimp only
  generalize wrap t = u at hwrap
  split
  · have hrise : Below 24 ((q - p) * 6 * u) :=
      below_mul (below_mul hspan hsix (by decide) (by decide)) hwrap (by decide) (by decide)
    have hsum : Below 26 (p + (q - p) * 6 * u) :=
      below_add (hp.mono (by decide)) hrise (by decide) (by decide)
    exact hsum.mono (by decide)
  split
  · exact hq.mono (by decide)
  split
  · have hleft : Below 10 (2 / 3 - u) :=
      below_sub (hthirds.mono (by decide)) hwrap (by decide) (by decide)
    have hfall : Below 26 ((q - p) * (2 / 3 - u) * 6) :=
      below_mul (below_mul hspan hleft (by decide) (by decide)) hsix (by decide) (by decide)
    exact below_add (hp.mono (by decide)) hfall (by decide) (by decide)
  · exact hp.mono (by decide)

theorem nearest_mul_255 {y : Float} (hy : Below 28 y) :
    ∃ n : Int, Scalar.nearest (y * 255) = .ok n ∧ n.natAbs < 2 ^ 53 := by
  have hmax : Below 8 (255 : Float) := by decide
  obtain ⟨n, hn, hlt⟩ := @nearest_of_below 37 (y * 255)
    (below_mul hy hmax (by decide) (by decide)) (by decide)
  exact ⟨n, hn, lt_trans hlt (by decide)⟩

/-- A hue, a saturation and a lightness in their range have whole channels. -/
theorem channels_clamped {x : Hsl Float} (hhue : IsNumber x.hue) (hsaturation : IsNumber x.saturation)
    (hlightness : IsNumber x.lightness) :
    ∃ r g b : Int, x.clamped.channels = .ok (r, g, b) ∧
      r.natAbs < 2 ^ 53 ∧ g.natAbs < 2 ^ 53 ∧ b.natAbs < 2 ^ 53 := by
  have hh : Below 2 (x.clamped.hue / 360) :=
    below_div (below_clamp hhue (by decide : IsPositive 9 (360 : Float)))
      (by decide : AtLeast 9 (360 : Float)) (by decide) (by decide)
  have hs : Below 2 (x.clamped.saturation / 100) :=
    below_div (below_clamp hsaturation (by decide : IsPositive 7 (100 : Float)))
      (by decide : AtLeast 7 (100 : Float)) (by decide) (by decide)
  have hl : Below 2 (x.clamped.lightness / 100) :=
    below_div (below_clamp hlightness (by decide : IsPositive 7 (100 : Float)))
      (by decide : AtLeast 7 (100 : Float)) (by decide) (by decide)
  unfold channels
  generalize x.clamped.hue / 360 = h at hh
  generalize x.clamped.saturation / 100 = s at hs
  generalize x.clamped.lightness / 100 = l at hl
  dsimp only
  split
  · obtain ⟨gray, hgray, hlt⟩ := nearest_mul_255 (hl.mono (by decide))
    rw [hgray]
    exact ⟨gray, gray, gray, rfl, hlt, hlt, hlt⟩
  · have hone : Below 1 (1 : Float) := by decide
    have htwo : Below 2 (2 : Float) := by decide
    have hthird : Below 0 ((1 : Float) / 3) := by decide
    have hq : Below 7 (if l < 1 / 2 then l * (1 + s) else l + s - l * s) := by
      have hsum : Below 4 (1 + s) := below_add (hone.mono (by decide)) hs (by decide) (by decide)
      split
      · exact below_mul hl hsum (by decide) (by decide)
      · have hboth : Below 4 (l + s) := below_add hl hs (by decide) (by decide)
        have hproduct : Below 5 (l * s) := below_mul hl hs (by decide) (by decide)
        exact below_sub (hboth.mono (by decide)) hproduct (by decide) (by decide)
    generalize (if l < 1 / 2 then l * (1 + s) else l + s - l * s) = q at hq
    have hp : Below 9 (2 * l - q) :=
      below_sub ((below_mul htwo hl (by decide) (by decide)).mono (by decide)) hq (by decide) (by decide)
    have hred : Below 4 (h + 1 / 3) := below_add hh (hthird.mono (by decide)) (by decide) (by decide)
    have hblue : Below 4 (h - 1 / 3) := below_sub hh (hthird.mono (by decide)) (by decide) (by decide)
    obtain ⟨r, hr, hrlt⟩ := nearest_mul_255 (below_channelAt hp hq hred)
    obtain ⟨g, hg, hglt⟩ := nearest_mul_255 (below_channelAt hp hq (hh.mono (by decide)))
    obtain ⟨b, hb, hblt⟩ := nearest_mul_255 (below_channelAt hp hq hblue)
    rw [hr, hg, hb]
    exact ⟨r, g, b, rfl, hrlt, hglt, hblt⟩

end Hsl

namespace Color

open Text

/-! ### Colours -/

/-- A colour all of whose parts are finite, and not too large to be rounded to hundredths. -/
structure IsFinite (c : Color Float) : Prop where
  red : Below 123 c.red
  green : Below 123 c.green
  blue : Below 123 c.blue
  alpha : Below 123 c.alpha

/-- A colour whose parts are finite has a canonical text. -/
theorem IsFinite.css?_eq {c : Color Float} (hc : c.IsFinite) : c.css? = .ok c.css := by
  have hmax : Below 8 (255 : Float) := by decide
  have hchannel {y : Float} (hy : Below 123 y) : ∃ n : Int, Scalar.nearest (y * 255) = .ok n := by
    obtain ⟨n, hn, -⟩ := @nearest_of_below 132 (y * 255)
      (below_mul hy hmax (by decide) (by decide)) (by decide)
    exact ⟨n, hn⟩
  obtain ⟨r, hr⟩ := hchannel hc.red
  obtain ⟨g, hg⟩ := hchannel hc.green
  obtain ⟨b, hb⟩ := hchannel hc.blue
  obtain ⟨alpha, halpha, hbelow⟩ := @Scalar.below_nearestHundredth 123 c.alpha hc.alpha (by decide)
  obtain ⟨text, htext⟩ := @Scalar.text_of_below 1024 alpha hbelow
  have hcss : ∃ s, c.css? = .ok s := by
    have hchannels : c.channels = .ok (r, g, b) := by
      rw [channels, hr, hg, hb]
      rfl
    rw [css?, hchannels, halpha]
    change ∃ s, (if alpha < 1 then do return rgbaText (r, g, b) (← Scalar.text alpha)
      else return rgbText (r, g, b) : Except ArithmeticError String) = .ok s
    rw [htext]
    split
    · exact ⟨_, rfl⟩
    · exact ⟨_, rfl⟩
  obtain ⟨s, hs⟩ := hcss
  rw [css, hs]
  rfl

theorem below_fraction {n : Int} (hn : n.natAbs < 2 ^ 53) : Below 123 (Float.ofInt n / 255) :=
  below_div (below_ofInt hn) (by decide : AtLeast 8 (255 : Float)) (by decide) (by decide)

theorem isFinite_ofChannels {r g b : Int} {alpha : Float} (written : Format)
    (hr : r.natAbs < 2 ^ 53) (hg : g.natAbs < 2 ^ 53) (hb : b.natAbs < 2 ^ 53)
    (halpha : Below 123 alpha) : (ofChannels (r, g, b) alpha written).IsFinite :=
  ⟨below_fraction hr, below_fraction hg, below_fraction hb, halpha⟩

theorem isNumber_leadingNumber? {cs : List Char} {x : Float} (hx : leadingNumber? cs = some x) :
    IsNumber x := by
  unfold leadingNumber? at hx
  split at hx
  · split at hx
    · rename_i d _ _ _
      cases hx
      exact isNumber_nearest d
    · exact absurd hx (by simp)
  · exact absurd hx (by simp)

theorem below_opacity (part : Option (List Char)) : Below 123 (opacity part : Float) := by
  have hone : Below 123 (1 : Float) := by decide
  unfold opacity
  split
  · exact hone
  · split
    · exact hone
    · rename_i x hx
      have hnumber := isNumber_leadingNumber? hx
      split
      · have hclamp := below_clamp hnumber (by decide : IsPositive 7 (100 : Float))
        have hfraction : Below 2 (Scalar.clamp x 0 100 / 100) :=
          below_div hclamp (by decide : AtLeast 7 (100 : Float)) (by decide) (by decide)
        exact hfraction.mono (by decide)
      · exact (below_clamp hnumber (by decide : IsPositive 1 (1 : Float))).mono (by decide)

theorem channel?_eq (part : List Char) :
    ∃ n? : Option Int, channel? (α := Float) part = .ok n? ∧ ∀ n, n? = some n → n.natAbs < 2 ^ 53 := by
  unfold channel?
  split
  · split
    · rename_i percent hpercent
      have hclamp := below_clamp (isNumber_leadingNumber? hpercent)
        (by decide : IsPositive 7 (100 : Float))
      have hfraction : Below 2 (Scalar.clamp percent 0 100 / 100) :=
        below_div hclamp (by decide : AtLeast 7 (100 : Float)) (by decide) (by decide)
      obtain ⟨n, hn, hlt⟩ := Hsl.nearest_mul_255 (hfraction.mono (by decide))
      refine ⟨some n, by rw [hn]; rfl, fun m hm => ?_⟩
      cases hm
      exact hlt
    · exact ⟨none, rfl, fun n hn => by cases hn⟩
  · split
    · rename_i d _
      split
      · rename_i hfinite
        obtain ⟨n, hn⟩ := nearest_of_finite (below_nearest hfinite)
        refine ⟨some (min (max n 0) 255), ?_, fun m hm => ?_⟩
        · change (do return some (min (max (← Scalar.nearest (nearest d)) 0) 255)) = _
          rw [hn]
          rfl
        · cases hm
          omega
      · exact ⟨none, rfl, fun n hn => by cases hn⟩
    · exact ⟨none, rfl, fun n hn => by cases hn⟩

/-- A reading that meets no error, and whose colour is finite. -/
def IsSound (reading : Except ArithmeticError (Option (Color Float))) : Prop :=
  ∃ c? : Option (Color Float), reading = .ok c? ∧ ∀ c, c? = some c → c.IsFinite

theorem isSound_none : IsSound (.ok none) :=
  ⟨none, rfl, fun c hc => by cases hc⟩

theorem isSound_some {c : Color Float} (hc : c.IsFinite) : IsSound (.ok (some c)) :=
  ⟨some c, rfl, fun c' hc' => by cases hc'; exact hc⟩

theorem hexValue?_lt {c : Char} {n : Nat} (hn : hexValue? c = some n) : n < 16 := by
  have hle {a b : Char} (h : a ≤ b) : a.toNat ≤ b.toNat := UInt32.le_iff_toNat_le.mp h
  unfold hexValue? at hn
  split at hn
  · rename_i hdigit
    cases hn
    have hnine : c.toNat ≤ '9'.toNat :=
      UInt32.le_iff_toNat_le.mp (of_decide_eq_true (Bool.and_eq_true_iff.mp hdigit).2)
    have hvalue : '9'.toNat = 57 := rfl
    have hzero : '0'.toNat = 48 := rfl
    omega
  split at hn
  · rename_i hsmall
    cases hn
    have hf := hle (of_decide_eq_true (Bool.and_eq_true_iff.mp hsmall).2)
    have hvalue : 'f'.toNat = 102 := rfl
    have hfirst : 'a'.toNat = 97 := rfl
    omega
  split at hn
  · rename_i hlarge
    cases hn
    have hf := hle (of_decide_eq_true (Bool.and_eq_true_iff.mp hlarge).2)
    have hvalue : 'F'.toNat = 70 := rfl
    have hfirst : 'A'.toNat = 65 := rfl
    omega
  · cases hn

theorem hexPairs_lt {values pairs : List Nat} (hvalues : ∀ n ∈ values, n < 16)
    (hpairs : hexPairs values = some pairs) : ∀ n ∈ pairs, n < 256 := by
  unfold hexPairs at hpairs
  split at hpairs
  case h_5 => cases hpairs
  all_goals
    cases hpairs
    simp only [List.forall_mem_cons] at hvalues ⊢
    simp
    omega

theorem mem_of_mapM {α β : Type} {f : α → Option β} {xs : List α} {ys : List β}
    (h : xs.mapM f = some ys) : ∀ y ∈ ys, ∃ x, f x = some y := by
  induction xs generalizing ys with
  | nil =>
    cases h
    simp
  | cons x xs ih =>
    simp only [List.mapM_cons, Option.bind_eq_bind, Option.bind_eq_some_iff, Option.pure_def] at h
    obtain ⟨y, hy, ys', hys', heq⟩ := h
    cases heq
    exact List.forall_mem_cons.mpr ⟨⟨x, hy⟩, ih hys'⟩

theorem length_of_mapM {α β : Type} {f : α → Option β} {xs : List α} {ys : List β}
    (h : xs.mapM f = some ys) : ys.length = xs.length := by
  induction xs generalizing ys with
  | nil =>
    cases h
    rfl
  | cons x xs ih =>
    simp only [List.mapM_cons, Option.bind_eq_bind, Option.bind_eq_some_iff, Option.pure_def] at h
    obtain ⟨y, -, ys', hys', heq⟩ := h
    cases heq
    exact congrArg (· + 1) (ih hys')

theorem isSound_ofHex? (digits : List Char) : IsSound (.ok (ofHex? digits)) := by
  cases hc : (ofHex? digits : Option (Color Float)) with
  | none => exact isSound_none
  | some c =>
    refine isSound_some ?_
    simp only [ofHex?, Option.bind_eq_bind, Option.bind_eq_some_iff] at hc
    obtain ⟨values, hvalues, pairs, hpairs, hc⟩ := hc
    have hlt : ∀ n ∈ pairs, n < 256 :=
      hexPairs_lt (fun n hn => (mem_of_mapM hvalues n hn).elim fun x hx => hexValue?_lt hx) hpairs
    have hnat {n : Nat} (hn : n ∈ pairs) : (n : Int).natAbs < 2 ^ 53 := lt_trans (hlt n hn) (by decide)
    split at hc
    · cases hc
      exact isFinite_ofChannels _ (hnat (by simp)) (hnat (by simp)) (hnat (by simp)) (by decide)
    · cases hc
      refine isFinite_ofChannels _ (hnat (by simp)) (hnat (by simp)) (hnat (by simp)) ?_
      exact below_fraction (hnat (by simp))
    · cases hc

theorem isSound_ofRgbCall (text body : List Char) : IsSound (ofRgbCall text body) := by
  unfold ofRgbCall
  dsimp only
  split
  · rename_i r g b more _
    obtain ⟨red?, hred, hr⟩ := channel?_eq r
    obtain ⟨green?, hgreen, hg⟩ := channel?_eq g
    obtain ⟨blue?, hblue, hb⟩ := channel?_eq b
    rw [hred, hgreen, hblue]
    cases red? with
    | none => exact isSound_none
    | some red =>
      cases green? with
      | none => exact isSound_none
      | some green =>
        cases blue? with
        | none => exact isSound_none
        | some blue =>
          exact isSound_some (isFinite_ofChannels _ (hr _ rfl) (hg _ rfl) (hb _ rfl) (below_opacity _))
  · exact isSound_none

theorem isSound_ofHsl {x : Hsl Float} {alpha : Float} (written : Format) (hhue : IsNumber x.hue)
    (hsaturation : IsNumber x.saturation) (hlightness : IsNumber x.lightness)
    (halpha : Below 123 alpha) : IsSound (some <$> ofHsl x alpha written) := by
  obtain ⟨r, g, b, hchannels, hr, hg, hb⟩ := Hsl.channels_clamped hhue hsaturation hlightness
  rw [ofHsl, hchannels]
  exact isSound_some (isFinite_ofChannels written hr hg hb halpha)

theorem isSound_ofHslCall (text body : List Char) : IsSound (ofHslCall text body) := by
  unfold ofHslCall
  dsimp only
  split
  · split
    · rename_i hhue hsaturation hlightness
      exact isSound_ofHsl _ (isNumber_leadingNumber? hhue) (isNumber_leadingNumber? hsaturation)
        (isNumber_leadingNumber? hlightness) (below_opacity _)
    · exact isSound_none
  · exact isSound_none

theorem isSound_ofCompact (text : List Char) : IsSound (ofCompact text) := by
  unfold ofCompact
  split
  · exact isSound_ofHsl _ (isNumber_nearest _) (isNumber_nearest _) (isNumber_nearest _)
      (below_opacity _)
  · exact isSound_none

theorem isSound_attempt (cs : List Char) : IsSound (attempt cs) := by
  unfold attempt ofTrimmed
  split
  · exact isSound_ofHex? _
  split
  · exact isSound_ofRgbCall _ _
  split
  · exact isSound_ofHslCall _ _
  · exact isSound_ofCompact _

/-- No text is an error, and what it is read as is finite. -/
theorem attempt_eq (cs : List Char) : attempt cs = .ok (ofChars? cs : Option (Color Float)) := by
  obtain ⟨c?, hc, -⟩ := isSound_attempt cs
  rw [ofChars?, hc]
  rfl

theorem isFinite_of_ofChars? {cs : List Char} {c : Color Float} (hc : ofChars? cs = some c) :
    c.IsFinite := by
  obtain ⟨c?, hread, hfinite⟩ := isSound_attempt cs
  rw [ofChars?, hread] at hc
  exact hfinite c hc

end Color

end Swatch
