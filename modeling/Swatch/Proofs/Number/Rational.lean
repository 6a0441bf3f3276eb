import Mathlib.Data.Rat.Floor
import Mathlib.Tactic.Linarith
import Swatch.Number.Scalar

/-!
The arithmetic of colours over exact rationals: nothing fails, and rounding moves a number by half a
unit at most.
-/

namespace Swatch.Scalar

theorem truncate_rat (x : Rat) :
    truncate x = .ok (if x < 0 then -⌊-x⌋ else ⌊x⌋) := by
  by_cases hx : x < 0
  · simp only [truncate, exact, Extended.ofRat, hx, if_true, decide_true]
    rfl
  · simp only [truncate, exact, Extended.ofRat, hx, if_false, decide_false]
    rfl

/-- The nearest whole number, halves away from zero. -/
def rounded (x : Rat) : Int :=
  if 0 ≤ x then ⌊x + 1 / 2⌋ else -⌊-x + 1 / 2⌋

theorem nearest_rat (x : Rat) : nearest x = .ok (rounded x) := by
  unfold rounded
  by_cases hx : 0 ≤ x
  · have hpos : nearest x = truncate (x + 1 / 2) := if_pos hx
    rw [hpos, truncate_rat, if_neg (by linarith), if_pos hx]
  · have hneg : nearest x = (- ·) <$> truncate (-x + 1 / 2) := if_neg hx
    rw [hneg, truncate_rat, if_neg (by linarith), if_neg hx]
    rfl

theorem abs_rounded_sub_le (x : Rat) : |(rounded x : Rat) - x| ≤ 1 / 2 := by
  unfold rounded
  split
  · have hle := Int.floor_le (x + 1 / 2)
    have hlt := Int.lt_floor_add_one (x + 1 / 2)
    rw [abs_le]
    constructor <;> linarith
  · have hle := Int.floor_le (-x + 1 / 2)
    have hlt := Int.lt_floor_add_one (-x + 1 / 2)
    rw [abs_le]
    push_cast
    constructor <;> linarith

/-- A number nearer than a half to a whole one is rounded to it. -/
theorem rounded_eq {x : Rat} {n : Int} (h : |x - n| < 1 / 2) : rounded x = n := by
  obtain ⟨hlow, hhigh⟩ := abs_lt.mp h
  unfold rounded
  split
  · rw [Int.floor_eq_iff]
    constructor <;> linarith
  · have hfloor : ⌊-x + 1 / 2⌋ = -n := by
      rw [Int.floor_eq_iff]
      push_cast
      constructor <;> linarith
    rw [hfloor, neg_neg]

theorem rounded_intCast (n : Int) : rounded n = n :=
  rounded_eq (by simp)

theorem rounded_nonneg {x : Rat} (hx : 0 ≤ x) : 0 ≤ rounded x := by
  rw [rounded, if_pos hx]
  exact Int.floor_nonneg.mpr (by linarith)

theorem rounded_le {x : Rat} {n : Int} (hx : x ≤ n) : rounded x ≤ n := by
  have hle := (abs_le.mp (abs_rounded_sub_le x)).2
  by_contra hgt
  have hstep : (n : Rat) + 1 ≤ rounded x := by exact_mod_cast Int.add_one_le_iff.mpr (not_le.mp hgt)
  linarith

theorem toRat_of_neg {d : Decimal} (places : Nat) (hexponent : d.exponent = -places) :
    d.toRat = (if d.negative then -1 else 1) * (d.digits / 10 ^ places) := by
  have hmagnitude : (if 0 ≤ d.exponent then ((d.digits * Nat.pow 10 d.exponent.toNat : Nat) : Rat)
      else mkRat d.digits (Nat.pow 10 (-d.exponent).toNat)) = d.digits / 10 ^ places := by
    split
    · have hnone : places = 0 := by omega
      simp [hexponent, hnone]
    · have hplaces : (-d.exponent).toNat = places := by omega
      rw [Rat.mkRat_eq_div, hplaces, Nat.pow_eq]
      push_cast
      rfl
  unfold Decimal.toRat
  rw [hmagnitude]
  split
  · rw [neg_one_mul]
  · rw [one_mul]

theorem toRat_hundredths (n : Int) : (Decimal.hundredths n).toRat = n / 100 := by
  rw [toRat_of_neg 2 rfl]
  simp only [Decimal.hundredths, decide_eq_true_eq]
  rcases lt_or_ge n 0 with hneg | hpos
  · have hcast : ((n.natAbs : Nat) : Rat) = -n := by
      rw [Nat.cast_natAbs, abs_of_neg hneg]
      push_cast
      rfl
    rw [if_pos hneg, hcast]
    linarith
  · have hcast : ((n.natAbs : Nat) : Rat) = n := by
      rw [Nat.cast_natAbs, abs_of_nonneg hpos]
    rw [if_neg (not_lt.mpr hpos), hcast]
    linarith

theorem nearestHundredth_rat (x : Rat) :
    nearestHundredth x = .ok ((rounded (x * 100) : Rat) / 100) := by
  have hhundred : nearestHundredth x = (ofDecimal ∘ Decimal.hundredths) <$> nearest (x * 100) := rfl
  rw [hhundred, nearest_rat, ← toRat_hundredths]
  rfl

theorem greater_rat (x y : Rat) : greater x y = max x y := by
  unfold greater
  split
  · rename_i hlt
    exact (max_eq_right hlt.le).symm
  · rename_i hge
    exact (max_eq_left (not_lt.mp hge)).symm

theorem smaller_rat (x y : Rat) : smaller x y = min x y := by
  unfold smaller
  split
  · rename_i hlt
    exact (min_eq_right hlt.le).symm
  · rename_i hge
    exact (min_eq_left (not_lt.mp hge)).symm

theorem clamp_rat (x low high : Rat) : clamp x low high = min (max x low) high := by
  rw [clamp, greater_rat, smaller_rat]

end Swatch.Scalar
