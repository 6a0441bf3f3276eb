import Mathlib.Algebra.Order.Field.Power
import Mathlib.Tactic.Linarith
import Mathlib.Tactic.Positivity
import Mathlib.Tactic.Ring
import Swatch.Proofs.Number.Finite

/-!
The values of doubles, and what rounding does to them: a value that is not too large is moved by a
small step at most.

Main statement: `isProper_roundWithAccuracy` together with `abs_value_roundWithAccuracy_sub_le`.
-/

namespace Swatch.Binary64

open Float.Model (Format UnpackedFloat totalExponent)
open Float.Model.UnpackedFloat

/-! ### Values -/

theorem Magnitude.toRat_eq (m : Magnitude) : m.toRat = m.mantissa * 2 ^ m.power := by
  unfold Magnitude.toRat
  split
  · rename_i hpower
    obtain ⟨k, hk⟩ := Int.eq_ofNat_of_zero_le hpower
    rw [hk, Int.toNat_natCast, zpow_natCast, Nat.pow_eq]
    push_cast
    rfl
  · obtain ⟨k, hk⟩ : ∃ k : Nat, m.power = -k := ⟨(-m.power).toNat, by omega⟩
    rw [hk, Int.neg_neg, Int.toNat_natCast, zpow_neg, zpow_natCast, Rat.mkRat_eq_div, div_eq_mul_inv,
      Nat.pow_eq]
    push_cast
    rfl

/-- The number that a double stands for. -/
def value : UnpackedFloat → Rat
  | .finite sign n e _ => sign.apply n * 2 ^ e
  | _ => 0

@[simp]
theorem value_zero (sign : Sign) : value (.zero sign) = 0 :=
  rfl

theorem cast_apply (sign : Sign) (n : Nat) : ((sign.apply n : Int) : Rat) = (sign.apply 1 : Int) * n := by
  cases sign
  · change ((-(n : Int) : Int) : Rat) = ((-1 : Int) : Rat) * n
    push_cast
    ring
  · change ((n : Int) : Rat) = ((1 : Int) : Rat) * n
    push_cast
    ring

theorem abs_apply_one (sign : Sign) : |((sign.apply 1 : Int) : Rat)| = 1 := by
  cases sign <;> rfl

theorem two_zpow_pos (e : Int) : (0 : Rat) < 2 ^ e :=
  zpow_pos (by decide) e

theorem two_zpow_add (j k : Int) : (2 : Rat) ^ (j + k) = 2 ^ j * 2 ^ k :=
  zpow_add₀ (by decide) j k

theorem two_zpow_le {j k : Int} (hjk : j ≤ k) : (2 : Rat) ^ j ≤ 2 ^ k :=
  zpow_le_zpow_right₀ (by decide) hjk

/-- The leading digit of a mantissa bounds the number. -/
theorem log2_add_le_of_le {n : Nat} {e k : Int} (hn : 0 < n) (hle : (n : Rat) * 2 ^ e ≤ 2 ^ k) :
    n.log2 + e ≤ k := by
  have hlog : (2 : Rat) ^ (n.log2 : Int) ≤ n := by
    rw [zpow_natCast]
    exact_mod_cast Nat.log2_self_le hn.ne'
  have hpow : (2 : Rat) ^ ((n.log2 : Int) + e) ≤ 2 ^ k := by
    rw [two_zpow_add]
    exact le_trans (mul_le_mul_of_nonneg_right hlog (two_zpow_pos e).le) hle
  exact (zpow_le_zpow_iff_right₀ (by decide)).mp hpow

/-! ### Doubles and their fields -/

/-- Zero, or a mantissa and an exponent as a double has them. -/
def IsProper : UnpackedFloat → Prop
  | .zero _ => True
  | .finite _ n e _ => n < 2 ^ 53 ∧ -1074 ≤ e ∧ e ≤ 971 ∧ (2 ^ 52 ≤ n ∨ e = -1074)
  | _ => False

instance : (u : UnpackedFloat) → Decidable (IsProper u)
  | .zero _ => instDecidableTrue
  | .finite _ n e _ =>
    @instDecidableAnd _ _ (Nat.decLt n (2 ^ 53)) (@instDecidableAnd _ _ (Int.decLe (-1074) e)
      (@instDecidableAnd _ _ (Int.decLe e 971)
        (@instDecidableOr _ _ (Nat.decLe (2 ^ 52) n) (Int.instDecidableEq e (-1074)))))
  | .infinity _ => instDecidableFalse
  | .notANumber => instDecidableFalse

theorem isProper_unpack {b : BitVec 64} {k : Int} (hb : IsBelow k (unpack Format.binary64 b)) :
    IsProper (unpack Format.binary64 b) := by
  cases hunpack : unpack Format.binary64 b with
  | zero sign => trivial
  | infinity sign =>
    rw [hunpack] at hb
    exact hb
  | notANumber =>
    rw [hunpack] at hb
    exact hb
  | finite sign n e hn =>
    obtain ⟨hlt, htop⟩ := bounds_of_unpack hunpack
    refine ⟨hlt, ?_⟩
    simp only [unpack, exponentBias_binary64] at hunpack
    split at hunpack
    · split at hunpack <;> cases hunpack
    split at hunpack
    · rename_i hzero
      split at hunpack
      · cases hunpack
      · cases hunpack
        have hnone : (@unpackExponent Format.binary64 b).toNat = 0 := congrArg BitVec.toNat hzero
        rw [hnone]
        exact ⟨by decide, by decide, .inr (by decide)⟩
    · rename_i hsome
      have hexponent : (@unpackExponent Format.binary64 b).toNat ≠ 0 :=
        fun h => hsome (BitVec.eq_of_toNat_eq h)
      cases hunpack
      have hsum := toNat_append_one (@unpackMantissa Format.binary64 b)
      refine ⟨?_, htop, .inl (by omega)⟩
      change -1074 ≤ ((@unpackExponent Format.binary64 b).toNat : Int) - (1023 + 52)
      omega

theorem ofBitVec_unpackSign (sign : Sign) (exponent : BitVec 11) (mantissa : BitVec 52) :
    Sign.ofBitVec (@unpackSign Format.binary64
      (packComponents Format.binary64 sign exponent mantissa)) = sign := by
  simp only [unpackSign, packComponents, BitVec.extractLsb]
  rw [BitVec.extractLsb'_append_eq_of_le (by decide), BitVec.extractLsb'_append_eq_of_le (by decide)]
  cases sign <;> rfl

/-- What is packed can be unpacked again. -/
theorem unpack_pack {u : UnpackedFloat} (hu : IsProper u) :
    unpack Format.binary64 (pack Format.binary64 u) = u := by
  cases u with
  | infinity sign => exact hu.elim
  | notANumber => exact hu.elim
  | zero sign => cases sign <;> rfl
  | finite sign n e hn =>
    obtain ⟨hlt, hlow, hhigh, hfull⟩ := hu
    have hfield : (e + Format.binary64.exponentBias + Format.binary64.mantissaBitsWithoutImplicit).toNat =
        (e + 1075).toNat := by
      change (e + 1023 + 52).toNat = _
      omega
    have hfits : ¬2 ^ Format.binary64.exponentBits ≤ (e + 1075).toNat + 1 := by
      change ¬2 ^ 11 ≤ _
      omega
    simp only [pack, hfield, if_neg hfits]
    by_cases hnormal : 2 ^ 52 ≤ n
    · have hlog : n.log2 + 1 = Format.binary64.mantissaBits :=
        congrArg (· + 1) ((Nat.log2_eq_iff hn.ne').mpr ⟨hnormal, hlt⟩)
      have hexponent : (BitVec.ofNat 11 (e + 1075).toNat).toNat = (e + 1075).toNat :=
        (BitVec.toNat_ofNat _ _).trans (Nat.mod_eq_of_lt (by omega))
      have htop : BitVec.ofNat 11 (e + 1075).toNat ≠ -1#11 := by
        intro heq
        have hnat : (e + 1075).toNat = 2047 := hexponent.symm.trans (congrArg BitVec.toNat heq)
        omega
      have hzero : BitVec.ofNat 11 (e + 1075).toNat ≠ 0#11 := by
        intro heq
        have hnat : (e + 1075).toNat = 0 := hexponent.symm.trans (congrArg BitVec.toNat heq)
        omega
      have hmantissa : (1#1 ++ BitVec.ofNat 52 n).toNat = n := by
        rw [toNat_append_one, BitVec.toNat_ofNat]
        omega
      rw [if_pos hlog, unpack]
      simp only [unpackMantissa_packComponents, unpackExponent_packComponents, ofBitVec_unpackSign]
      rw [if_neg htop, if_neg hzero]
      simp only [finite.injEq, true_and]
      refine ⟨hmantissa, ?_⟩
      change ((BitVec.ofNat 11 (e + 1075).toNat).toNat : Int) - (1023 + 52) = e
      omega
    · have hlog : ¬n.log2 + 1 = Format.binary64.mantissaBits := by
        have hshort : n.log2 < 52 := (Nat.log2_lt hn.ne').mpr (not_le.mp hnormal)
        change ¬n.log2 + 1 = 53
        omega
      have hmantissa : (BitVec.ofNat 52 n).toNat = n :=
        (BitVec.toNat_ofNat _ _).trans (Nat.mod_eq_of_lt (not_le.mp hnormal))
      have hsome : BitVec.ofNat 52 n ≠ 0#52 := by
        intro heq
        have hnat : n = 0 := hmantissa.symm.trans (congrArg BitVec.toNat heq)
        omega
      have htop : 0#11 ≠ -1#11 := by decide
      rw [if_neg hlog, unpack]
      simp only [unpackMantissa_packComponents, unpackExponent_packComponents, ofBitVec_unpackSign]
      rw [if_neg htop, if_pos trivial, dif_neg hsome]
      simp only [finite.injEq, true_and]
      exact ⟨hmantissa, (hfull.resolve_left hnormal).symm⟩

/-! ### Rounding -/

theorem le_rounded (n : Nat) (e : Int) (accuracy : Accuracy) :
    n / 2 ^ shift n e ≤ rounded n e accuracy := by
  have hle : ∀ em : ExtendedMantissa, em.mantissa ≤ em.roundedMantissa := by
    rintro ⟨m, _ | _, _ | _⟩
    · exact Nat.le_refl _
    · exact Nat.le_refl _
    · exact Nat.le_add_right _ _
    · exact Nat.le_succ _
  have hrounded := hle (ExtendedMantissa.ofMantissaAndAccuracy n accuracy >>> shift n e)
  rwa [mantissa_shiftRight, mantissa_ofMantissaAndAccuracy] at hrounded

/-- A mantissa whose last digits are all to be rounded away, or none of them. -/
def IsLong (n : Nat) (e : Int) : Prop :=
  52 ≤ n.log2 ∨ e ≤ -1074

section Rounding

variable {n : Nat} {e : Int} {accuracy : Accuracy} {sign : Sign}

theorem IsLong.add_shift_eq (hlong : IsLong n e) :
    e + shift n e = max (n.log2 + e - 52) (-1074) := by
  rw [Binary64.add_shift_eq, totalExponent]
  rcases hlong with hlog | hlow
  · omega
  · omega

theorem IsLong.div_lt (hlong : IsLong n e) : n / 2 ^ shift n e < 2 ^ 53 := by
  have hshift := hlong.add_shift_eq
  refine Nat.div_lt_of_lt_mul (lt_of_lt_of_le Nat.lt_log2_self ?_)
  rw [← Nat.pow_add]
  exact Nat.pow_le_pow_right (by decide) (by omega)

theorem IsLong.le_div (hlong : IsLong n e) (hhigh : -1074 < e + shift n e) :
    2 ^ 52 ≤ n / 2 ^ shift n e := by
  have hshift := hlong.add_shift_eq
  have hlog : n.log2 = 52 + shift n e := by
    rcases hlong with hlong | hlow
    · omega
    · omega
  have hn : n ≠ 0 := by
    rintro rfl
    rw [Nat.log2_zero] at hlog
    omega
  rw [Nat.le_div_iff_mul_le (Nat.two_pow_pos _), ← Nat.pow_add, ← hlog]
  exact Nat.log2_self_le hn

/-- The second shift removes at most the digit that rounding carried over. -/
theorem shift_rounded (hlong : IsLong n e) :
    rounded n e accuracy < 2 ^ 53 ∧ shift (rounded n e accuracy) (e + shift n e) = 0 ∨
      rounded n e accuracy = 2 ^ 53 ∧ shift (rounded n e accuracy) (e + shift n e) = 1 := by
  have hle := rounded_le n e accuracy
  have hdiv := hlong.div_lt
  have hshift := hlong.add_shift_eq
  generalize rounded n e accuracy = r at hle
  generalize e + shift n e = e' at hshift
  rcases Nat.lt_or_ge r (2 ^ 53) with hlt | hge
  · refine .inl ⟨hlt, ?_⟩
    have hlog : r.log2 < 53 := by
      rcases Nat.eq_zero_or_pos r with rfl | hpos
      · decide
      · exact (Nat.log2_lt hpos.ne').mpr hlt
    simp only [shift, totalExponent]
    omega
  · have hr : r = 2 ^ 53 := by omega
    refine .inr ⟨hr, ?_⟩
    have hlog : r.log2 = 53 := by
      rw [hr]
      exact Nat.log2_two_pow
    simp only [shift, totalExponent, hlog]
    omega

theorem roundWithAccuracy_of_lt (hlong : IsLong n e) (hlt : rounded n e accuracy < 2 ^ 53) :
    roundWithAccuracy Format.binary64 sign n e accuracy =
      if h : rounded n e accuracy = 0 then .zero sign
      else .finite sign (rounded n e accuracy) (e + shift n e) (Nat.pos_of_ne_zero h) := by
  have hsame : shift (rounded n e accuracy) (e + shift n e) = 0 := by
    rcases @shift_rounded n e accuracy hlong with ⟨-, hsame⟩ | ⟨heq, -⟩
    · exact hsame
    · omega
  rcases roundWithAccuracy_cases sign n e accuracy with ⟨hnone, hzero⟩ | ⟨hpos, hfinite⟩
  · rw [hsame, pow_zero, Nat.div_one] at hnone
    rw [hzero, dif_pos hnone]
  · rw [hfinite]
    simp only [hsame, pow_zero, Nat.div_one] at hpos ⊢
    rw [dif_neg hpos.ne']
    simp

theorem roundWithAccuracy_of_eq (hlong : IsLong n e) (heq : rounded n e accuracy = 2 ^ 53) :
    roundWithAccuracy Format.binary64 sign n e accuracy =
      .finite sign (2 ^ 52) (e + shift n e + 1) (Nat.two_pow_pos 52) := by
  have hone : shift (rounded n e accuracy) (e + shift n e) = 1 := by
    rcases @shift_rounded n e accuracy hlong with ⟨hlt, -⟩ | ⟨-, hone⟩
    · omega
    · exact hone
  have hhalf : 2 ^ 53 / 2 ^ 1 = 2 ^ 52 := by decide
  rcases roundWithAccuracy_cases sign n e accuracy with ⟨hnone, -⟩ | ⟨hpos, hfinite⟩
  · rw [hone, heq] at hnone
    exact absurd hnone (by decide)
  · rw [hfinite, finite.injEq, hone, heq]
    exact ⟨rfl, hhalf, rfl⟩

theorem isProper_roundWithAccuracy (hlong : IsLong n e) (hhigh : e + shift n e ≤ 970) :
    IsProper (roundWithAccuracy Format.binary64 sign n e accuracy) := by
  have hshift := hlong.add_shift_eq
  rcases @shift_rounded n e accuracy hlong with ⟨hlt, -⟩ | ⟨heq, -⟩
  · rw [roundWithAccuracy_of_lt hlong hlt]
    split
    · trivial
    · refine ⟨hlt, by omega, by omega, ?_⟩
      by_cases hlow : e + shift n e = -1074
      · exact .inr hlow
      · exact .inl (le_trans (hlong.le_div (by omega)) (le_rounded n e accuracy))
  · rw [roundWithAccuracy_of_eq hlong heq]
    exact ⟨by decide, by omega, by omega, .inl (le_refl _)⟩

theorem value_roundWithAccuracy (hlong : IsLong n e) :
    value (roundWithAccuracy Format.binary64 sign n e accuracy) =
      (sign.apply 1 : Int) * (rounded n e accuracy * 2 ^ (e + shift n e)) := by
  rcases @shift_rounded n e accuracy hlong with ⟨hlt, -⟩ | ⟨heq, -⟩
  · rw [roundWithAccuracy_of_lt hlong hlt]
    split
    · rename_i hzero
      simp [value, hzero]
    · simp only [value]
      rw [cast_apply, mul_assoc]
  · have hcarry : ((2 ^ 53 : Nat) : Rat) = (2 ^ 52 : Nat) * 2 ^ (1 : Int) := by norm_num
    rw [roundWithAccuracy_of_eq hlong heq, heq, hcarry]
    simp only [value]
    rw [cast_apply, two_zpow_add]
    ring

/-- A number between a mantissa and the next is rounded to one that is off by one last digit at
most. -/
theorem abs_rounded_sub_le {v : Rat} (hlow : n * 2 ^ e ≤ v) (hhigh : v ≤ (n + 1) * 2 ^ e) :
    |rounded n e accuracy * 2 ^ (e + shift n e) - v| ≤ (2 : Rat) ^ (e + shift n e) := by
  have hunit := two_zpow_pos e
  have hpow : (2 : Rat) ^ (e + shift n e) = 2 ^ e * (2 ^ shift n e : Nat) := by
    rw [two_zpow_add, zpow_natCast]
    push_cast
    rfl
  have hfloor : ((n / 2 ^ shift n e : Nat) : Rat) * (2 ^ shift n e : Nat) ≤ n := by
    exact_mod_cast Nat.div_mul_le_self n (2 ^ shift n e)
  have hceil : (n : Rat) + 1 ≤ ((n / 2 ^ shift n e : Nat) + 1) * (2 ^ shift n e : Nat) := by
    rw [mul_comm]
    exact_mod_cast Nat.lt_mul_div_succ n (Nat.two_pow_pos (shift n e))
  have hfirst : ((n / 2 ^ shift n e : Nat) : Rat) ≤ rounded n e accuracy := by
    exact_mod_cast le_rounded n e accuracy
  have hlast : (rounded n e accuracy : Rat) ≤ (n / 2 ^ shift n e : Nat) + 1 := by
    exact_mod_cast rounded_le n e accuracy
  have hstep : (0 : Rat) < (2 ^ shift n e : Nat) := by positivity
  rw [hpow, abs_le]
  constructor
  · have hdown := mul_le_mul_of_nonneg_right hfirst hstep.le
    nlinarith
  · have hup := mul_le_mul_of_nonneg_right hlast hstep.le
    nlinarith

end Rounding

/-! ### Operations -/

/-- How far a number up to `2 ^ 16` is moved when it is rounded. -/
def step : Rat :=
  1 / 2 ^ 36

theorem step_pos : 0 < step := by
  norm_num [step]

/-- A double that is as near to a number as rounding leaves it. -/
def Near (u : UnpackedFloat) (v : Rat) : Prop :=
  IsProper u ∧ |value u - v| ≤ step

theorem near_of_eq {u : UnpackedFloat} {v : Rat} (hu : IsProper u) (hv : value u = v) : Near u v := by
  refine ⟨hu, ?_⟩
  rw [hv, sub_self, abs_zero]
  exact step_pos.le

theorem near_zero (sign : Sign) : Near (.zero sign) 0 :=
  near_of_eq trivial rfl

section Operations

variable {n : Nat} {e : Int} {accuracy : Accuracy} {sign : Sign}

theorem near_roundWithAccuracy {v : Rat} (hlong : IsLong n e) (hlow : n * 2 ^ e ≤ v)
    (hhigh : v ≤ (n + 1) * 2 ^ e) (hv : v ≤ 2 ^ (16 : Int)) :
    Near (roundWithAccuracy Format.binary64 sign n e accuracy) ((sign.apply 1 : Int) * v) := by
  have hexponent : e + shift n e ≤ -36 := by
    rw [hlong.add_shift_eq]
    rcases Nat.eq_zero_or_pos n with rfl | hpos
    · rcases hlong with hlog | htiny
      · exact absurd hlog (by decide)
      · rw [Nat.log2_zero]
        omega
    · have hlog := log2_add_le_of_le hpos (le_trans hlow hv)
      omega
  refine ⟨isProper_roundWithAccuracy hlong (by omega), ?_⟩
  rw [value_roundWithAccuracy hlong, ← mul_sub, abs_mul, abs_apply_one, one_mul]
  refine le_trans (abs_rounded_sub_le hlow hhigh) (le_trans (two_zpow_le hexponent) ?_)
  exact le_of_eq (by norm_num [step])

theorem near_roundWithAccuracy_exact (hlong : IsLong n e) (hn : n * 2 ^ e ≤ (2 : Rat) ^ (16 : Int)) :
    Near (roundWithAccuracy Format.binary64 sign n e accuracy) ((sign.apply n : Int) * 2 ^ e) := by
  have hnext : (n : Rat) * 2 ^ e ≤ (n + 1) * 2 ^ e :=
    mul_le_mul_of_nonneg_right (by linarith) (two_zpow_pos e).le
  rw [cast_apply, mul_assoc]
  exact near_roundWithAccuracy hlong (le_refl _) hnext hn

theorem shiftLeft_mul_zpow (n d : Nat) (e : Int) :
    ((n <<< d : Nat) : Rat) * 2 ^ (e - d) = n * 2 ^ e := by
  rw [Nat.shiftLeft_eq, zpow_sub₀ (by decide), zpow_natCast]
  push_cast
  field_simp

theorem near_round (hn : 0 < n) (hv : n * 2 ^ e ≤ (2 : Rat) ^ (16 : Int)) :
    Near (round Format.binary64 sign n e) ((sign.apply n : Int) * 2 ^ e) := by
  rw [UnpackedFloat.round, targetExponent_binary64]
  simp only [decreaseExponent]
  generalize hd : (e - max (totalExponent n e - 53) (-1074)).toNat = d
  have hlong : IsLong (n <<< d) (e - d) := by
    rw [totalExponent] at hd
    rw [IsLong, log2_shiftLeft hn.ne']
    omega
  have hsame := shiftLeft_mul_zpow n d e
  have hnear := @near_roundWithAccuracy_exact (n <<< d) (e - d) .exact sign hlong (by rwa [hsame])
  rwa [cast_apply, mul_assoc, hsame, ← mul_assoc, ← cast_apply] at hnear

theorem near_normalize {m : Int} (hm : |(m : Rat) * 2 ^ e| ≤ 2 ^ (16 : Int)) :
    Near (normalize Format.binary64 m e sign) (m * 2 ^ e) := by
  rcases normalize_cases m e sign with ⟨rfl, hzero⟩ | ⟨hpos, sign', hsigned, hround⟩
  · rw [hzero, Int.cast_zero, zero_mul]
    exact near_zero sign
  · have habs : ((m.natAbs : Nat) : Rat) * 2 ^ e ≤ 2 ^ (16 : Int) := by
      rwa [abs_mul, abs_of_pos (two_zpow_pos e), ← Int.cast_abs, Int.abs_eq_natAbs, Int.cast_natCast] at hm
    have hnear := @near_round m.natAbs e sign' hpos habs
    rwa [hsigned, ← hround] at hnear

/-- A whole number of few digits is not moved by rounding. -/
theorem value_round_whole (hn : 0 < n) (hlt : n < 2 ^ 53) :
    IsProper (round Format.binary64 sign n 0) ∧
      value (round Format.binary64 sign n 0) = (sign.apply n : Int) := by
  rw [UnpackedFloat.round, targetExponent_binary64]
  simp only [decreaseExponent]
  generalize hd : (0 - max (totalExponent n 0 - 53) (-1074)).toNat = d
  have hlog : n.log2 < 53 := (Nat.log2_lt hn.ne').mpr hlt
  rw [totalExponent] at hd
  have hlong : IsLong (n <<< d) (0 - d) := by
    rw [IsLong, log2_shiftLeft hn.ne']
    omega
  have hshift : shift (n <<< d) (0 - d) = 0 := by
    rw [shift, totalExponent, log2_shiftLeft hn.ne']
    omega
  have hrounded : rounded (n <<< d) (0 - d) .exact = n <<< d := by
    rw [rounded, hshift]
    rfl
  refine ⟨isProper_roundWithAccuracy hlong (by rw [hshift]; omega), ?_⟩
  rw [value_roundWithAccuracy hlong, hrounded, hshift, Int.natCast_zero, add_zero,
    shiftLeft_mul_zpow, zpow_zero, mul_one, ← cast_apply]

theorem value_normalize_whole (hlt : n < 2 ^ 53) :
    IsProper (normalize Format.binary64 n 0 .positive) ∧
      value (normalize Format.binary64 n 0 .positive) = n := by
  rcases normalize_cases (n : Int) 0 .positive with ⟨hnone, hzero⟩ | ⟨hpos, sign, hsigned, hround⟩
  · obtain rfl : n = 0 := Int.ofNat_eq_zero.mp hnone
    rw [hzero]
    exact ⟨trivial, Nat.cast_zero.symm⟩
  · have hwhole := @value_round_whole n sign hpos hlt
    rw [Int.natAbs_natCast] at hround hsigned
    rw [hround]
    rwa [hsigned, Int.cast_natCast] at hwhole

theorem apply_mul_apply (s t : Sign) (m n : Nat) :
    (((s * t).apply (m * n : Nat) : Int) : Rat) = (s.apply m : Int) * (t.apply n : Int) := by
  have happly : (s * t).apply (m * n : Nat) = s.apply m * t.apply n := by
    cases s <;> cases t
    · exact (neg_mul_neg (m : Int) n).symm
    · exact (neg_mul (m : Int) n).symm
    · exact (mul_neg (m : Int) n).symm
    · rfl
  rw [happly, Int.cast_mul]

theorem apply_div_apply (s t : Sign) (m n : Nat) :
    (((s / t).apply 1 : Int) : Rat) * (m / n) = (s.apply m : Int) / (t.apply n : Int) := by
  rw [cast_apply s, cast_apply t]
  cases s <;> cases t
  · change ((1 : Int) : Rat) * (m / n) = ((-1 : Int) : Rat) * m / (((-1 : Int) : Rat) * n)
    push_cast
    rw [neg_one_mul, neg_one_mul, neg_div_neg_eq, one_mul]
  · change ((-1 : Int) : Rat) * (m / n) = ((-1 : Int) : Rat) * m / (((1 : Int) : Rat) * n)
    push_cast
    rw [one_mul, mul_div_assoc]
  · change ((-1 : Int) : Rat) * (m / n) = ((1 : Int) : Rat) * m / (((-1 : Int) : Rat) * n)
    push_cast
    rw [neg_one_mul, neg_one_mul, one_mul, div_neg]
  · change ((1 : Int) : Rat) * (m / n) = ((1 : Int) : Rat) * m / (((1 : Int) : Rat) * n)
    push_cast
    rw [one_mul, one_mul, one_mul]

variable {u v : UnpackedFloat}

theorem IsProper.near (hu : IsProper u) : Near u (value u) :=
  near_of_eq hu rfl

theorem fst_decreaseExponent_mul {e target : Int} (htarget : target ≤ e) (sign : Sign) (n : Nat) :
    ((sign.apply (decreaseExponent n e target).1 : Int) : Rat) * 2 ^ target =
      (sign.apply n : Int) * 2 ^ e := by
  have hsame := shiftLeft_mul_zpow n (e - target).toNat e
  have hexponent : e - ((e - target).toNat : Int) = target := by omega
  rw [hexponent] at hsame
  rw [cast_apply, cast_apply sign n, mul_assoc, mul_assoc]
  exact congrArg _ hsame

theorem near_add (hu : IsProper u) (hv : IsProper v) (hsum : |value u + value v| ≤ 2 ^ (16 : Int)) :
    Near (add Format.binary64 u v) (value u + value v) := by
  cases u with
  | infinity sign => exact hu.elim
  | notANumber => exact hu.elim
  | zero sign =>
    rw [value_zero, zero_add]
    cases v with
    | infinity sign => exact hv.elim
    | notANumber => exact hv.elim
    | zero sign' =>
      simp only [add]
      split
      · exact near_zero _
      · exact near_zero _
    | finite sign' n e hn => exact hv.near
  | finite sign n e hn =>
    cases v with
    | infinity sign => exact hv.elim
    | notANumber => exact hv.elim
    | zero sign' =>
      rw [value_zero, add_zero]
      exact hu.near
    | finite sign' n' e' hn' =>
      have hvalue : value (.finite sign n e hn) + value (.finite sign' n' e' hn') =
          ((sign.apply (decreaseExponent n e (min e e')).1 +
            sign'.apply (decreaseExponent n' e' (min e e')).1 : Int) : Rat) * 2 ^ (min e e') := by
        rw [Int.cast_add, add_mul, fst_decreaseExponent_mul (min_le_left e e'),
          fst_decreaseExponent_mul (min_le_right e e')]
        rfl
      rw [hvalue] at hsum ⊢
      exact near_normalize hsum

theorem isProper_neg (hu : IsProper u) : IsProper u.neg := by
  cases u with
  | infinity sign => exact hu
  | notANumber => exact hu
  | zero sign => exact hu
  | finite sign n e hn => exact hu

theorem value_neg (u : UnpackedFloat) : value u.neg = -value u := by
  cases u with
  | finite sign n e hn =>
    have happly : (-sign).apply (n : Int) = -sign.apply n := by
      cases sign
      · exact (Int.neg_neg _).symm
      · rfl
    simp only [UnpackedFloat.neg, value, happly, Int.cast_neg, neg_mul]
  | _ => exact neg_zero.symm

theorem isLong_mul {n' : Nat} {e' : Int} (hn : 0 < n) (hn' : 0 < n') (hu : 2 ^ 52 ≤ n ∨ e = -1074)
    (hv : 2 ^ 52 ≤ n' ∨ e' = -1074) : IsLong (n * n') (e + e') := by
  have hpos : n * n' ≠ 0 := (Nat.mul_pos hn hn').ne'
  rcases hu with hu | hu
  · exact .inl ((Nat.le_log2 hpos).mpr (le_trans hu (Nat.le_mul_of_pos_right n hn')))
  rcases hv with hv | hv
  · exact .inl ((Nat.le_log2 hpos).mpr (le_trans hv (Nat.le_mul_of_pos_left n' hn)))
  · exact .inr (by omega)

theorem near_mul (hu : IsProper u) (hv : IsProper v) (hproduct : |value u * value v| ≤ 2 ^ (16 : Int)) :
    Near (mul Format.binary64 u v) (value u * value v) := by
  cases u with
  | infinity sign => exact hu.elim
  | notANumber => exact hu.elim
  | zero sign =>
    rw [value_zero, zero_mul]
    cases v with
    | infinity sign => exact hv.elim
    | notANumber => exact hv.elim
    | zero sign' => exact near_zero _
    | finite sign' n e hn => exact near_zero _
  | finite sign n e hn =>
    cases v with
    | infinity sign => exact hv.elim
    | notANumber => exact hv.elim
    | zero sign' =>
      rw [value_zero, mul_zero]
      exact near_zero _
    | finite sign' n' e' hn' =>
      have hvalue : value (.finite sign n e hn) * value (.finite sign' n' e' hn') =
          ((sign * sign').apply (n * n' : Nat) : Int) * 2 ^ (e + e') := by
        rw [apply_mul_apply, two_zpow_add]
        simp only [value]
        ring
      rw [hvalue] at hproduct ⊢
      refine near_roundWithAccuracy_exact (isLong_mul hn hn' hu.2.2.2 hv.2.2.2) ?_
      rwa [cast_apply, mul_assoc, abs_mul, abs_apply_one, one_mul, abs_of_nonneg (by positivity)]
        at hproduct

/-- Multiplying with one moves no number. -/
theorem mul_one_eq (hu : IsProper u) {hone : 0 < 2 ^ 52} :
    mul Format.binary64 u (.finite .positive (2 ^ 52) (-52) hone) = u := by
  have hsign (sign : Sign) : sign * .positive = sign := by
    cases sign <;> rfl
  cases u with
  | infinity sign => exact hu.elim
  | notANumber => exact hu.elim
  | zero sign => exact congrArg UnpackedFloat.zero (hsign sign)
  | finite sign n e hn =>
    obtain ⟨hlt, hlow, -, hfull⟩ := hu
    have hlog : (n * 2 ^ 52).log2 = n.log2 + 52 := by
      rw [← Nat.shiftLeft_eq, log2_shiftLeft hn.ne']
    have hsmall : n.log2 < 53 := (Nat.log2_lt hn.ne').mpr hlt
    have hlarge : 52 ≤ n.log2 ∨ e = -1074 := hfull.imp_left (Nat.le_log2 hn.ne').mpr
    have hlong : IsLong (n * 2 ^ 52) (e + -52) := .inl (by omega)
    have hshift : shift (n * 2 ^ 52) (e + -52) = 51 + 1 := by
      rw [shift, totalExponent, hlog]
      omega
    have hrounded : rounded (n * 2 ^ 52) (e + -52) .exact = n := by
      have hle := rounded_le_of_shift hshift .exact
      have hge := le_rounded (n * 2 ^ 52) (e + -52) .exact
      have htwice : n * 2 ^ 52 / 2 ^ 51 = n * 2 := by omega
      rw [hshift, Nat.mul_div_cancel n (Nat.two_pow_pos 52)] at hge
      rw [htwice, Nat.mul_div_cancel n (by decide), Nat.mul_mod_left] at hle
      exact le_antisymm hle hge
    have hmul : mul Format.binary64 (.finite sign n e hn) (.finite .positive (2 ^ 52) (-52) hone) =
        roundWithAccuracy Format.binary64 (sign * .positive) (n * 2 ^ 52) (e + -52) .exact := rfl
    have hexponent : e + -52 + ((51 + 1 : Nat) : Int) = e := by omega
    rw [hmul, hsign, roundWithAccuracy_of_lt hlong (by rwa [hrounded])]
    simp only [hrounded, hshift, hexponent]
    rw [dif_neg hn.ne']

theorem cast_div_bounds (m : Nat) {n : Nat} (hn : 0 < n) :
    ((m / n : Nat) : Rat) ≤ m / n ∧ (m : Rat) / n ≤ (m / n : Nat) + 1 := by
  have hpos : (0 : Rat) < n := Nat.cast_pos.mpr hn
  refine ⟨Nat.cast_div_le, ?_⟩
  rw [div_le_iff₀ hpos, mul_comm]
  exact_mod_cast (Nat.lt_mul_div_succ m hn).le

/-- A quotient is long enough to be rounded, as the dividend is given so many more digits. -/
theorem isLong_div {n n' d : Nat} {e e' target : Int} (hn : 0 < n) (hn' : 0 < n')
    (htarget : min (e - e') (max (totalExponent n e - totalExponent n' e' - 53) (-1074)) = target)
    (hd : (e - e' - target).toNat = d) : IsLong (n <<< d / n') target := by
  simp only [totalExponent] at htarget
  by_cases htiny : target ≤ -1074
  · exact .inr htiny
  · have hspan : n'.log2 + 1 + 52 ≤ n.log2 + d := by omega
    have hlarge : 2 ^ 52 * n' ≤ n <<< d := by
      calc 2 ^ 52 * n'
          ≤ 2 ^ 52 * 2 ^ (n'.log2 + 1) := Nat.mul_le_mul_left _ Nat.lt_log2_self.le
        _ = 2 ^ (52 + (n'.log2 + 1)) := (Nat.pow_add _ _ _).symm
        _ ≤ 2 ^ (n.log2 + d) := Nat.pow_le_pow_right (by decide) (by omega)
        _ = 2 ^ n.log2 * 2 ^ d := Nat.pow_add _ _ _
        _ ≤ n * 2 ^ d := Nat.mul_le_mul_right _ (Nat.log2_self_le hn.ne')
        _ = n <<< d := (Nat.shiftLeft_eq n d).symm
    have hquot : 2 ^ 52 ≤ n <<< d / n' := (Nat.le_div_iff_mul_le hn').mpr hlarge
    exact .inl ((Nat.le_log2 (by omega)).mpr hquot)

theorem near_div (hu : IsProper u) (hv : IsProper v) (hne : value v ≠ 0)
    (hquotient : |value u / value v| ≤ 2 ^ (16 : Int)) :
    Near (div Format.binary64 u v) (value u / value v) := by
  cases v with
  | infinity sign => exact hv.elim
  | notANumber => exact hv.elim
  | zero sign => exact absurd rfl hne
  | finite sign' n' e' hn' =>
    cases u with
    | infinity sign => exact hu.elim
    | notANumber => exact hu.elim
    | zero sign =>
      rw [value_zero, zero_div]
      exact near_zero _
    | finite sign n e hn =>
      have hcore : div Format.binary64 (.finite sign n e hn) (.finite sign' n' e' hn') =
          roundWithAccuracy Format.binary64 (sign / sign') (divCore Format.binary64 n e n' e').1
            (divCore Format.binary64 n e n' e').2.1 (divCore Format.binary64 n e n' e').2.2 := rfl
      rw [hcore]
      simp only [divCore, targetExponent_binary64]
      generalize htarget :
        min (e - e') (max (totalExponent n e - totalExponent n' e' - 53) (-1074)) = target
      generalize hd : (e - e' - target).toNat = d
      obtain ⟨hfloor, hceil⟩ := cast_div_bounds (n <<< d) hn'
      have hmagnitude : ((n <<< d : Nat) : Rat) / n' * 2 ^ target = n / n' * 2 ^ (e - e') := by
        have hsame := shiftLeft_mul_zpow n d (e - e')
        have hexponent : e - e' - (d : Int) = target := by omega
        rw [hexponent] at hsame
        rw [div_mul_eq_mul_div, hsame, div_mul_eq_mul_div]
      have hvalue : value (.finite sign n e hn) / value (.finite sign' n' e' hn') =
          ((sign / sign').apply 1 : Int) * ((n : Rat) / n' * 2 ^ (e - e')) := by
        rw [← mul_assoc, apply_div_apply, zpow_sub₀ (by decide)]
        exact mul_div_mul_comm _ _ _ _
      rw [hvalue] at hquotient ⊢
      rw [← hmagnitude] at hquotient ⊢
      refine near_roundWithAccuracy (isLong_div hn hn' htarget hd) ?_ ?_ ?_
      · exact mul_le_mul_of_nonneg_right hfloor (two_zpow_pos target).le
      · exact mul_le_mul_of_nonneg_right hceil (two_zpow_pos target).le
      · rwa [abs_mul, abs_apply_one, one_mul, abs_of_nonneg (by positivity)] at hquotient

end Operations

end Swatch.Binary64
