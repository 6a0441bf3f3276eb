import Mathlib.Algebra.Order.Group.MinMax
import Mathlib.Tactic.Ring
import Swatch.Color.Hsl
import Swatch.Proofs.Number.Rational

/-!
The channels of a colour by its hue, saturation and lightness, over exact rationals: each channel is a
lightness, moved by a saturation as far as a wave around the colour circle says. Small changes of the
three make small changes of the channels.
-/

namespace Swatch.Hsl

/-- How far a channel is from its least strength, as a fraction of the way to its greatest. -/
def wave (t : Rat) : Rat :=
  if wrap t < 1 / 6 then 6 * wrap t
  else if wrap t < 1 / 2 then 1
  else if wrap t < 2 / 3 then (2 / 3 - wrap t) * 6
  else 0

theorem channelAt_eq (p q t : Rat) : channelAt p q t = p + (q - p) * wave t := by
  unfold channelAt wave
  dsimp only
  split_ifs <;> ring

/-! ### The wave as tents -/

/-- One rise and fall, around a third of a turn. -/
def tent (t : Rat) : Rat :=
  max (min (2 - |6 * t - 2|) 1) 0

theorem abs_tent_sub_le (t u : Rat) : |tent t - tent u| ≤ 6 * |t - u| := by
  calc |tent t - tent u|
      ≤ |min (2 - |6 * t - 2|) 1 - min (2 - |6 * u - 2|) 1| := abs_max_sub_max_le_abs _ _ _
    _ ≤ max |(2 - |6 * t - 2|) - (2 - |6 * u - 2|)| |1 - 1| := abs_min_sub_min_le_max _ _ _ _
    _ = |(|6 * u - 2| - |6 * t - 2|)| := by
      rw [sub_self, abs_zero, max_eq_left (abs_nonneg _), sub_sub_sub_cancel_left]
    _ ≤ |6 * u - 2 - (6 * t - 2)| := abs_abs_sub_abs_le _ _
    _ = 6 * |t - u| := by
      rw [sub_sub_sub_cancel_right, ← mul_sub, abs_mul, abs_sub_comm u t]
      rfl

theorem tent_of_le {t : Rat} (ht : t ≤ 0) : tent t = 0 := by
  rw [tent, abs_of_nonpos (by linarith), max_eq_right]
  exact min_le_of_left_le (by linarith)

theorem tent_of_ge {t : Rat} (ht : 2 / 3 ≤ t) : tent t = 0 := by
  rw [tent, abs_of_nonneg (by linarith), max_eq_right]
  exact min_le_of_left_le (by linarith)

theorem tent_rising {t : Rat} (hlow : 0 ≤ t) (hhigh : t ≤ 1 / 6) : tent t = 6 * t := by
  rw [tent, abs_of_nonpos (by linarith), min_eq_left (by linarith), max_eq_left (by linarith)]
  ring

theorem tent_full {t : Rat} (hlow : 1 / 6 ≤ t) (hhigh : t ≤ 1 / 2) : tent t = 1 := by
  have habs : |6 * t - 2| ≤ 1 := abs_le.mpr ⟨by linarith, by linarith⟩
  rw [tent, min_eq_right (by linarith), max_eq_left (by decide)]

theorem tent_falling {t : Rat} (hlow : 1 / 2 ≤ t) (hhigh : t ≤ 2 / 3) :
    tent t = (2 / 3 - t) * 6 := by
  rw [tent, abs_of_nonneg (by linarith), min_eq_left (by linarith), max_eq_left (by linarith)]
  ring

theorem wave_eq_tent {t : Rat} (hlow : 0 ≤ wrap t) : wave t = tent (wrap t) := by
  unfold wave
  split_ifs with hsixth hhalf hthirds
  · exact (tent_rising hlow hsixth.le).symm
  · exact (tent_full (not_lt.mp hsixth) hhalf.le).symm
  · exact (tent_falling (not_lt.mp hhalf) hthirds.le).symm
  · exact (tent_of_ge (not_lt.mp hthirds)).symm

theorem wrap_of_neg {t : Rat} (hneg : t < 0) : wrap t = t + 1 := by
  unfold wrap
  dsimp only
  rw [if_pos hneg, if_neg (by linarith)]

theorem wrap_of_mem {t : Rat} (hlow : 0 ≤ t) (hhigh : t ≤ 1) : wrap t = t := by
  unfold wrap
  dsimp only
  rw [if_neg (not_lt.mpr hlow), if_neg (not_lt.mpr hhigh)]

theorem wrap_of_gt {t : Rat} (hgt : 1 < t) : wrap t = t - 1 := by
  unfold wrap
  dsimp only
  have hpos : ¬t < 0 := by linarith
  rw [if_neg hpos, if_pos hgt]

theorem wrap_nonneg {t : Rat} (ht : -1 ≤ t) : 0 ≤ wrap t := by
  rcases lt_or_ge t 0 with hneg | hpos
  · rw [wrap_of_neg hneg]
    linarith
  rcases le_or_gt t 1 with hle | hgt
  · rwa [wrap_of_mem hpos hle]
  · rw [wrap_of_gt hgt]
    linarith

/-- The wave is continuous, also where the circle closes. -/
theorem wave_eq {t : Rat} (ht : -1 ≤ t) : wave t = tent (t + 1) + tent t + tent (t - 1) := by
  rw [wave_eq_tent (wrap_nonneg ht)]
  rcases lt_or_ge t 0 with hneg | hpos
  · rw [wrap_of_neg hneg, tent_of_le hneg.le, @tent_of_le (t - 1) (by linarith)]
    ring
  rcases le_or_gt t 1 with hle | hgt
  · rw [wrap_of_mem hpos hle, @tent_of_ge (t + 1) (by linarith), @tent_of_le (t - 1) (by linarith)]
    ring
  · rw [wrap_of_gt hgt, @tent_of_ge (t + 1) (by linarith), @tent_of_ge t (by linarith)]
    ring

theorem abs_wave_sub_le {t u : Rat} (ht : -1 ≤ t) (hu : -1 ≤ u) :
    |wave t - wave u| ≤ 18 * |t - u| := by
  have hnext := abs_tent_sub_le (t + 1) (u + 1)
  have hhere := abs_tent_sub_le t u
  have hlast := abs_tent_sub_le (t - 1) (u - 1)
  rw [add_sub_add_right_eq_sub] at hnext
  rw [sub_sub_sub_cancel_right] at hlast
  rw [wave_eq ht, wave_eq hu, add_sub_add_comm, add_sub_add_comm]
  have hsum := abs_add_three (tent (t + 1) - tent (u + 1)) (tent t - tent u)
    (tent (t - 1) - tent (u - 1))
  linarith

theorem wave_mem {t : Rat} (ht : -1 ≤ t) : 0 ≤ wave t ∧ wave t ≤ 1 := by
  rw [wave_eq_tent (wrap_nonneg ht), tent]
  exact ⟨le_max_right _ _, max_le (min_le_right _ _) (by decide)⟩

/-! ### The strength of a channel -/

/-- A channel around its lightness, by a saturation and by how far the wave is up. -/
def strength (s l w : Rat) : Rat :=
  l + s * min l (1 - l) * (2 * w - 1)

theorem strength_eq_channelAt (s l t : Rat) :
    let q := if l < 1 / 2 then l * (1 + s) else l + s - l * s
    channelAt (2 * l - q) q t = strength s l (wave t) := by
  intro q
  have hq : q = l + s * min l (1 - l) := by
    unfold q
    split_ifs with hdark
    · rw [min_eq_left (by linarith)]
      ring
    · rw [min_eq_right (by linarith)]
      ring
  rw [channelAt_eq, strength, hq]
  ring

/-- Hue, saturation and lightness as fractions give the three channels. -/
theorem channels_eq (x : Hsl Rat) :
    x.channels =
      let h := x.hue / 360
      let strengthAt (t : Rat) := strength (x.saturation / 100) (x.lightness / 100) (wave t)
      .ok (Scalar.rounded (strengthAt (h + 1 / 3) * 255), Scalar.rounded (strengthAt h * 255),
        Scalar.rounded (strengthAt (h - 1 / 3) * 255)) := by
  unfold channels
  dsimp only
  split
  · rename_i hnone
    have hs : x.saturation / 100 = 0 := beq_iff_eq.mp hnone
    have hgray : ∀ w, strength (x.saturation / 100) (x.lightness / 100) w = x.lightness / 100 := by
      intro w
      rw [strength, hs, zero_mul, zero_mul, add_zero]
    rw [Scalar.nearest_rat]
    simp only [hgray]
    rfl
  · rw [strength_eq_channelAt, strength_eq_channelAt, strength_eq_channelAt, Scalar.nearest_rat,
      Scalar.nearest_rat, Scalar.nearest_rat]
    rfl

theorem min_one_sub_mem {l : Rat} (hl : 0 ≤ l ∧ l ≤ 1) : |min l (1 - l)| ≤ 1 := by
  rw [abs_le]
  exact ⟨by linarith [le_min hl.1 (sub_nonneg.mpr hl.2)], le_trans (min_le_left _ _) hl.2⟩

theorem abs_mul_le_left {x y : Rat} (hy : |y| ≤ 1) : |x * y| ≤ |x| := by
  rw [abs_mul]
  exact mul_le_of_le_one_right (abs_nonneg x) hy

/-- Components that differ by little have channels that differ by little. -/
theorem abs_strength_sub_le {s s' l l' w w' : Rat} (hs : |s| ≤ 1) (hl : 0 ≤ l ∧ l ≤ 1)
    (hl' : 0 ≤ l' ∧ l' ≤ 1) (hw' : 0 ≤ w' ∧ w' ≤ 1) :
    |strength s l w - strength s' l' w'| ≤ |s - s'| + 2 * |l - l'| + 2 * |w - w'| := by
  have hreach : |min l (1 - l) - min l' (1 - l')| ≤ |l - l'| := by
    refine le_trans (abs_min_sub_min_le_max l (1 - l) l' (1 - l')) (max_le (le_refl _) ?_)
    rw [sub_sub_sub_cancel_left, abs_sub_comm]
  have hwave : |2 * w' - 1| ≤ 1 := abs_le.mpr ⟨by linarith, by linarith⟩
  have hsplit : strength s l w - strength s' l' w' =
      (l - l') + (min l (1 - l) - min l' (1 - l')) * s * (2 * w' - 1) +
        (s - s') * min l' (1 - l') * (2 * w' - 1) + 2 * ((w - w') * s * min l (1 - l)) := by
    unfold strength
    ring
  have hlight := le_trans (abs_mul_le_left hwave)
    (le_trans (@abs_mul_le_left (min l (1 - l) - min l' (1 - l')) s hs) hreach)
  have hsaturated := le_trans (abs_mul_le_left hwave)
    (@abs_mul_le_left (s - s') (min l' (1 - l')) (min_one_sub_mem hl'))
  have hmoved := le_trans (@abs_mul_le_left ((w - w') * s) (min l (1 - l)) (min_one_sub_mem hl))
    (@abs_mul_le_left (w - w') s hs)
  rw [hsplit]
  have hsum := abs_add_le ((l - l') + (min l (1 - l) - min l' (1 - l')) * s * (2 * w' - 1) +
    (s - s') * min l' (1 - l') * (2 * w' - 1)) (2 * ((w - w') * s * min l (1 - l)))
  have hthree := abs_add_three (l - l') ((min l (1 - l) - min l' (1 - l')) * s * (2 * w' - 1))
    ((s - s') * min l' (1 - l') * (2 * w' - 1))
  rw [abs_mul 2, abs_two] at hsum
  linarith

end Swatch.Hsl
