import Mathlib

/-!
How large a number gets when it is rounded to a double. A number with a whole mantissa and an
exponent of two is below `2 ^ k` if its total exponent is at most `k`. Rounding may carry it over one
power of two; just below the greatest double it does not carry it beyond.
-/

namespace Swatch.Binary64

open Float.Model (Format UnpackedFloat totalExponent)
open Float.Model.UnpackedFloat

/-- A number that is less than `2 ^ k` in magnitude; neither infinite nor the lack of a number. -/
def IsBelow (k : Int) : UnpackedFloat → Prop
  | .zero _ => True
  | .finite _ mantissa exponent _ => totalExponent mantissa exponent ≤ k
  | .infinity _ => False
  | .notANumber => False

instance (k : Int) (u : UnpackedFloat) : Decidable (IsBelow k u) := by
  cases u <;> unfold IsBelow <;> infer_instance

theorem IsBelow.mono {u : UnpackedFloat} {k l : Int} (hu : IsBelow k u) (hkl : k ≤ l) : IsBelow l u := by
  cases u with
  | finite => exact le_trans hu hkl
  | zero => trivial
  | infinity => exact hu
  | notANumber => exact hu

/-! ### Shifting a mantissa -/

theorem mantissa_shiftRight (em : ExtendedMantissa) (n : Nat) :
    (em >>> n).mantissa = em.mantissa / 2 ^ n := by
  induction n with
  | zero => simp [HShiftRight.hShiftRight, Nat.repeat]
  | succ n ih =>
    have hstep : (em >>> (n + 1)).mantissa = (em >>> n).mantissa / 2 := rfl
    rw [hstep, ih, Nat.div_div_eq_div_mul, ← Nat.pow_succ]

theorem roundBit_shiftRight (em : ExtendedMantissa) (n : Nat) :
    (em >>> (n + 1)).roundBit = (em.mantissa / 2 ^ n % 2 != 0) := by
  rw [← mantissa_shiftRight]
  rfl

theorem mantissa_ofMantissaAndAccuracy (n : Nat) (accuracy : Accuracy) :
    (ExtendedMantissa.ofMantissaAndAccuracy n accuracy).mantissa = n := by
  rcases accuracy with _ | _ | _ | _ <;> rfl

theorem roundedMantissa_le (em : ExtendedMantissa) :
    em.roundedMantissa ≤ em.mantissa + em.roundBit.toNat := by
  rcases em with ⟨n, _ | _, _ | _⟩
  · exact Nat.le_refl _
  · exact Nat.le_refl _
  · exact Nat.add_le_add_left (Nat.le_of_lt_succ (Nat.mod_lt n (by decide))) n
  · exact Nat.le_refl _

/-- By how much a mantissa is shifted to the right to fit into a double. -/
def shift (n : Nat) (e : Int) : Nat :=
  (max (totalExponent n e - 53) (-1074) - e).toNat

theorem targetExponent_binary64 (t : Int) : Format.binary64.targetExponent t = max (t - 53) (-1074) :=
  rfl

/-- The mantissa that is left after the first shift and rounding. -/
def rounded (n : Nat) (e : Int) (accuracy : Accuracy) : Nat :=
  (ExtendedMantissa.ofMantissaAndAccuracy n accuracy >>> shift n e).roundedMantissa

theorem rounded_le (n : Nat) (e : Int) (accuracy : Accuracy) :
    rounded n e accuracy ≤ n / 2 ^ shift n e + 1 := by
  have hle := roundedMantissa_le (ExtendedMantissa.ofMantissaAndAccuracy n accuracy >>> shift n e)
  rw [mantissa_shiftRight, mantissa_ofMantissaAndAccuracy] at hle
  exact le_trans hle (Nat.add_le_add_left (Bool.toNat_le _) _)

/-- Rounding goes by the last digit that is shifted out. -/
theorem rounded_le_of_shift {n : Nat} {e : Int} {d : Nat} (hd : shift n e = d + 1)
    (accuracy : Accuracy) : rounded n e accuracy ≤ n / 2 ^ d / 2 + n / 2 ^ d % 2 := by
  have hle := roundedMantissa_le (ExtendedMantissa.ofMantissaAndAccuracy n accuracy >>> shift n e)
  rw [hd, mantissa_shiftRight, roundBit_shiftRight, mantissa_ofMantissaAndAccuracy, Nat.pow_succ,
    ← Nat.div_div_eq_div_mul] at hle
  rw [rounded, hd]
  refine le_trans hle (Nat.add_le_add_left ?_ _)
  rcases Nat.mod_two_eq_zero_or_one (n / 2 ^ d) with h | h <;> simp [h]

theorem lt_two_pow_of_totalExponent_le {n : Nat} {e k : Int} (hk : totalExponent n e ≤ k) :
    n < 2 ^ (k - e).toNat := by
  refine lt_of_lt_of_le Nat.lt_log2_self (Nat.pow_le_pow_right (by decide) ?_)
  rw [totalExponent] at hk
  omega

theorem totalExponent_div_le {n d : Nat} {e : Int} (hpos : 0 < n / 2 ^ d) :
    totalExponent (n / 2 ^ d) (e + d) ≤ totalExponent n e := by
  have hle : 2 ^ ((n / 2 ^ d).log2 + d) ≤ n := by
    rw [Nat.pow_add]
    exact le_trans (Nat.mul_le_mul_right _ (Nat.log2_self_le hpos.ne')) (Nat.div_mul_le_self _ _)
  have hn : n ≠ 0 := by
    rintro rfl
    simp at hpos
  have hlog := (Nat.le_log2 hn).mpr hle
  simp only [totalExponent]
  omega

theorem totalExponent_le_of_lt {n : Nat} {e k : Int} (hn : 0 < n) (hlt : n < 2 ^ (k - e).toNat) :
    totalExponent n e ≤ k := by
  have hlog := (Nat.log2_lt hn.ne').mpr hlt
  simp only [totalExponent]
  omega

/-- What rounding gives is the rounded mantissa, shifted once more if it has one digit too many. -/
theorem roundWithAccuracy_cases (sign : Sign) (n : Nat) (e : Int) (accuracy : Accuracy) :
    let e' := e + shift n e
    let n' := rounded n e accuracy
    let d := shift n' e'
    n' / 2 ^ d = 0 ∧ roundWithAccuracy Format.binary64 sign n e accuracy = .zero sign ∨
      ∃ hpos : 0 < n' / 2 ^ d,
        roundWithAccuracy Format.binary64 sign n e accuracy =
          .finite sign (n' / 2 ^ d) (e' + d) hpos := by
  intro e' n' d
  have hmantissa : ((ExtendedMantissa.ofMantissaAndAccuracy n' .exact) >>> d).mantissa = n' / 2 ^ d := by
    rw [mantissa_shiftRight, mantissa_ofMantissaAndAccuracy]
  have hround : roundWithAccuracy Format.binary64 sign n e accuracy =
      if h : ((ExtendedMantissa.ofMantissaAndAccuracy n' .exact) >>> d).mantissa = 0 then .zero sign
      else .finite sign _ (e' + d) (Nat.pos_of_ne_zero h) := rfl
  rw [hround]
  rcases Nat.eq_zero_or_pos (n' / 2 ^ d) with hzero | hpos
  · exact .inl ⟨hzero, dif_pos (hmantissa.trans hzero)⟩
  · refine .inr ⟨hpos, ?_⟩
    rw [dif_neg (by rw [hmantissa]; exact hpos.ne')]
    simp only [hmantissa]

theorem add_shift_eq (n : Nat) (e : Int) :
    e + shift n e = max e (max (totalExponent n e - 53) (-1074)) := by
  rw [shift]
  omega

/-! ### Bounds -/

/-- A number that has been rounded: below `2 ^ k`, and its exponent fits into a double. -/
def IsRounded (k : Int) (u : UnpackedFloat) : Prop :=
  IsBelow k u ∧ ∀ sign n e h, u = .finite sign n e h → e ≤ 971

/-- The second shift leaves a mantissa as large as it is. -/
theorem isRounded_of_rounded {sign : Sign} {n : Nat} {e k : Int} {accuracy : Accuracy} (hk : k ≤ 1024)
    (hmin : -1074 ≤ k) (hexponent : e + shift n e ≤ 971)
    (htotal : 0 < rounded n e accuracy →
      totalExponent (rounded n e accuracy) (e + shift n e) ≤ k) :
    IsRounded k (roundWithAccuracy Format.binary64 sign n e accuracy) := by
  rcases roundWithAccuracy_cases sign n e accuracy with ⟨-, hzero⟩ | ⟨hpos, hfinite⟩
  · rw [hzero]
    exact ⟨trivial, fun _ _ _ _ heq => by cases heq⟩
  · have hle := htotal (Nat.pos_of_ne_zero fun h => by simp [h] at hpos)
    rw [hfinite]
    refine ⟨le_trans (totalExponent_div_le hpos) hle, fun _ _ _ _ heq => ?_⟩
    cases heq
    rw [add_shift_eq]
    omega

/-- Rounding carries a number over one power of two at most. -/
theorem isRounded_roundWithAccuracy {sign : Sign} {n : Nat} {e k : Int} {accuracy : Accuracy}
    (hn : totalExponent n e ≤ k) (hk : k ≤ 971) (hmin : -1074 ≤ k) :
    IsRounded (k + 1) (roundWithAccuracy Format.binary64 sign n e accuracy) := by
  have hshift := add_shift_eq n e
  have hexponent : e + shift n e ≤ k := by
    have hlow : 1 + e ≤ totalExponent n e := by
      simp only [totalExponent]
      omega
    omega
  refine isRounded_of_rounded (by omega) (by omega) (by omega) fun hpos => ?_
  refine totalExponent_le_of_lt hpos ?_
  have hdiv : n / 2 ^ shift n e < 2 ^ (k - (e + shift n e)).toNat := by
    refine Nat.div_lt_of_lt_mul ?_
    rw [← Nat.pow_add]
    have hexp : shift n e + (k - (e + shift n e)).toNat = (k - e).toNat := by omega
    rw [hexp]
    exact lt_two_pow_of_totalExponent_le hn
  have hpow : (k + 1 - (e + shift n e)).toNat = (k - (e + shift n e)).toNat + 1 := by omega
  rw [hpow, Nat.pow_succ]
  have hrounded := rounded_le n e accuracy
  omega

/-- Below half a step beyond the greatest double, rounding stays within the doubles. -/
theorem isRounded_of_lt {sign : Sign} {n : Nat} {e : Int} {accuracy : Accuracy} (he : e ≤ 970)
    (hn : n < (2 ^ 54 - 1) * 2 ^ (970 - e).toNat) :
    IsRounded 1024 (roundWithAccuracy Format.binary64 sign n e accuracy) := by
  have hshift := add_shift_eq n e
  have htop : totalExponent n e ≤ 1024 := by
    rcases Nat.eq_zero_or_pos n with rfl | hpos
    · simp only [totalExponent, Nat.log2_zero]
      omega
    · refine totalExponent_le_of_lt hpos (lt_of_lt_of_le hn ?_)
      have hpow : (1024 - e).toNat = 54 + (970 - e).toNat := by omega
      rw [hpow, Nat.pow_add]
      exact Nat.mul_le_mul_right _ (by decide)
  refine isRounded_of_rounded (le_refl _) (by decide) (by omega) fun hpos => ?_
  refine totalExponent_le_of_lt hpos ?_
  by_cases hlast : e + shift n e = 971
  · -- The number is in the last binade: the digit that decides is not set if all others are.
    obtain ⟨d, hd⟩ : ∃ d, shift n e = d + 1 := ⟨shift n e - 1, by omega⟩
    have hquotient : n / 2 ^ d < 2 ^ 54 - 1 := by
      refine Nat.div_lt_of_lt_mul ?_
      have hexp : (970 - e).toNat = d := by omega
      rw [hexp] at hn
      rwa [Nat.mul_comm]
    have hrounded := rounded_le_of_shift hd accuracy
    have hpow : (1024 - (e + shift n e)).toNat = 53 := by omega
    rw [hpow]
    omega
  · have hdiv : n / 2 ^ shift n e < 2 ^ 53 := by
      refine Nat.div_lt_of_lt_mul ?_
      rw [← Nat.pow_add]
      have hown : n < 2 ^ (totalExponent n e - e).toNat := lt_two_pow_of_totalExponent_le (le_refl _)
      exact lt_of_lt_of_le hown (Nat.pow_le_pow_right (by decide) (by omega))
    have hrounded := rounded_le n e accuracy
    have hpow : 2 ^ 54 ≤ 2 ^ (1024 - (e + shift n e)).toNat :=
      Nat.pow_le_pow_right (by decide) (by omega)
    omega

end Swatch.Binary64
