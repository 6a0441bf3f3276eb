import Mathlib.Data.Rat.Floor
import Swatch.Number.Scalar
import Swatch.Proofs.Number.Magnitude

/-!
Doubles that are numbers: finite, and below a power of two. They can be converted to whole numbers,
and so can what is computed from them.
-/

namespace Swatch.Binary64

open Float.Model (Format UnpackedFloat totalExponent)
open Float.Model.UnpackedFloat

/-- A double that is less than `2 ^ k` in magnitude. -/
def Below (k : Int) (x : Float) : Prop :=
  IsBelow k x.toModel.unpack

instance (k : Int) (x : Float) : Decidable (Below k x) :=
  inferInstanceAs (Decidable (IsBelow k _))

theorem Below.mono {k l : Int} {x : Float} (hx : Below k x) (hkl : k ≤ l) : Below l x :=
  IsBelow.mono hx hkl

/-! ### Arithmetic -/

section Arithmetic

variable {j k : Int} {x y : Float}

theorem below_neg (hx : Below k x) (hk : -1022 ≤ k) : Below k (-x) := by
  have hrounded : IsRounded k x.toModel.unpack.neg := by
    refine ⟨isBelow_neg hx, fun sign n e hn heq => ?_⟩
    cases hunpack : x.toModel.unpack with
    | finite sign' n' e' hn' =>
      rw [hunpack] at heq
      cases heq
      exact (bounds_of_unpack hunpack).2
    | _ => simp [hunpack, UnpackedFloat.neg] at heq
  exact hrounded.isBelow_unpack_pack hk

theorem below_add (hx : Below k x) (hy : Below k y) (hk : k ≤ 970) (hmin : -1024 ≤ k) :
    Below (k + 2) (x + y) :=
  (isRounded_add hx hy hk (by omega)).isBelow_unpack_pack (by omega)

theorem below_sub (hx : Below k x) (hy : Below k y) (hk : k ≤ 970) (hmin : -1024 ≤ k) :
    Below (k + 2) (x - y) :=
  (isRounded_sub hx hy hk (by omega)).isBelow_unpack_pack (by omega)

theorem below_mul (hx : Below j x) (hy : Below k y) (hjk : j + k ≤ 971) (hmin : -1023 ≤ j + k) :
    Below (j + k + 1) (x * y) :=
  (isRounded_mul hx hy hjk (by omega)).isBelow_unpack_pack (by omega)

/-- A double that is not less than `2 ^ (j - 1)`. -/
def AtLeast (j : Int) (x : Float) : Prop :=
  match x.toModel.unpack with
  | .finite _ mantissa exponent _ => j ≤ totalExponent mantissa exponent
  | _ => False

instance (j : Int) (x : Float) : Decidable (AtLeast j x) := by
  unfold AtLeast
  cases x.toModel.unpack <;> infer_instance

theorem below_div (hx : Below k x) (hy : AtLeast j y) (hjk : k - j ≤ 969) (hmin : -1024 ≤ k - j) :
    Below (k - j + 2) (x / y) := by
  have hquotient : IsRounded (k - j + 2)
      (div Format.binary64 x.toModel.unpack y.toModel.unpack) := by
    unfold AtLeast at hy
    cases hunpack : y.toModel.unpack with
    | finite sign n e hn =>
      rw [hunpack] at hy
      exact isRounded_div hx hy hjk (by omega)
    | zero sign => simp [hunpack] at hy
    | infinity sign => simp [hunpack] at hy
    | notANumber => simp [hunpack] at hy
  exact hquotient.isBelow_unpack_pack (by omega)

end Arithmetic

/-! ### Clamping -/

def IsNumber (x : Float) : Prop :=
  x.toModel.unpack ≠ .notANumber

theorem Below.isNumber {k : Int} {x : Float} (hx : Below k x) : IsNumber x := by
  intro hunpack
  rw [Below, hunpack] at hx
  exact hx

/-- A positive double, with its exponent where the mantissa has all its digits. -/
def IsPositive (k : Int) (x : Float) : Prop :=
  match x.toModel.unpack with
  | .finite .positive _ exponent _ => exponent + 53 ≤ k
  | _ => False

instance (k : Int) (x : Float) : Decidable (IsPositive k x) := by
  unfold IsPositive
  cases x.toModel.unpack with
  | finite sign => cases sign <;> infer_instance
  | _ => infer_instance

theorem lt_iff_compare {x y : Float} :
    x < y ↔ UnpackedFloat.compare x.toModel.unpack y.toModel.unpack = some .lt := by
  change decide (x.toModel < y.toModel) = true ↔ _
  rw [decide_eq_true_iff]
  exact beq_iff_eq

/-- A number between zero and a positive bound is below the power of two that bounds the bound. -/
theorem below_of_not_lt {k : Int} {x high : Float} (hx : IsNumber x) (hhigh : IsPositive k high)
    (hlow : ¬x < 0) (hle : ¬high < x) : Below k x := by
  have hzero : (0 : Float).toModel.unpack = .zero .positive := rfl
  rw [lt_iff_compare, hzero] at hlow
  rw [lt_iff_compare] at hle
  unfold IsPositive at hhigh
  unfold Below
  cases hunpack : x.toModel.unpack with
  | notANumber => exact absurd hunpack hx
  | zero sign => trivial
  | infinity sign =>
    rw [hunpack] at hlow hle
    cases sign with
    | negative => exact absurd rfl hlow
    | positive =>
      split at hhigh
      · rename_i heq
        rw [heq] at hle
        exact absurd rfl hle
      · exact hhigh.elim
  | finite sign n e hn =>
    rw [hunpack] at hlow hle
    cases sign with
    | negative => exact absurd rfl hlow
    | positive =>
      split at hhigh
      · rename_i n' e' hn' heq
        rw [heq] at hle
        have hexponent : e ≤ e' := by
          by_contra hgt
          refine hle ?_
          have hcompare : compare e' e = .lt := Int.compare_eq_lt.mpr (by omega)
          simp only [UnpackedFloat.compare, hcompare]
          rfl
        exact hunpack ▸ isBelow_of_unpack hunpack (by omega)
      · exact hhigh.elim

theorem IsPositive.below {k : Int} {x : Float} (hx : IsPositive k x) : Below k x := by
  unfold IsPositive at hx
  split at hx
  · rename_i hunpack
    exact isBelow_of_unpack hunpack hx
  · exact hx.elim

theorem below_clamp {k : Int} {x high : Float} (hx : IsNumber x) (hhigh : IsPositive k high) :
    Below k (Scalar.clamp x 0 high) := by
  simp only [Scalar.clamp, Scalar.smaller, Scalar.greater]
  by_cases hlow : x < 0
  · simp only [if_pos hlow]
    split
    · exact hhigh.below
    · exact (by trivial : IsBelow k (.zero .positive))
  · simp only [if_neg hlow]
    split
    · exact hhigh.below
    · rename_i hle
      exact below_of_not_lt hx hhigh hlow hle

/-! ### The fields of a double -/

theorem exponent_fields (x : Float) :
    (fields x).exponent = (@unpackExponent Format.binary64 x.toModel.toBits.toBitVec).toNat := by
  simp only [unpackExponent, BitVec.toNat_cast, BitVec.extractLsb_toNat, Nat.shiftRight_eq_div_pow]
  rfl

theorem fraction_fields (x : Float) :
    (fields x).fraction = (@unpackMantissa Format.binary64 x.toModel.toBits.toBitVec).toNat := by
  simp only [unpackMantissa, BitVec.toNat_cast, BitVec.extractLsb_toNat, Nat.shiftRight_eq_div_pow,
    Nat.pow_zero, Nat.div_one]
  rfl

theorem toNat_append_one (m : BitVec 52) : (1#1 ++ m).toNat = m.toNat + 2 ^ 52 := by
  rw [BitVec.toNat_append, ← Nat.shiftLeft_add_eq_or_of_lt m.isLt, Nat.add_comm]
  rfl

theorem negative_fields (x : Float) : (fields x).negative = true ↔
    Sign.ofBitVec (@unpackSign Format.binary64 x.toModel.toBits.toBitVec) = .negative := by
  have hbit : (@unpackSign Format.binary64 x.toModel.toBits.toBitVec).toNat = x.toBits.toNat / 2 ^ 63 := by
    have hlt : x.toBits.toNat < 2 ^ 64 := x.toBits.toNat_lt
    simp only [unpackSign, BitVec.toNat_cast, BitVec.extractLsb_toNat, Nat.shiftRight_eq_div_pow]
    change x.toBits.toNat / 2 ^ 63 % 2 = _
    omega
  have hlt := (@unpackSign Format.binary64 x.toModel.toBits.toBitVec).isLt
  have hzero : @unpackSign Format.binary64 x.toModel.toBits.toBitVec = 0#1 ↔ x.toBits.toNat / 2 ^ 63 = 0 := by
    rw [← hbit]
    exact BitVec.toNat_inj.symm
  have hfield : (fields x).negative = (x.toBits.toNat / 2 ^ 63 == 1) := rfl
  rw [hfield, beq_iff_eq, Sign.ofBitVec]
  split
  · rename_i h
    rw [hzero.mp h]
    simp
  · rename_i h
    rw [hzero] at h
    simp only [iff_true]
    omega

/-- A double taken apart. -/
theorem magnitude_fields {x : Float} {sign : Sign} {n : Nat} {e : Int} {hn : 0 < n}
    (hx : x.toModel.unpack = .finite sign n e hn) :
    (fields x).exponent ≠ 2047 ∧ (fields x).magnitude = ⟨n, e⟩ ∧
      ((fields x).negative = true ↔ sign = .negative) := by
  have hsign := negative_fields x
  unfold Float.Model.unpack at hx
  simp only [unpack, exponentBias_binary64] at hx
  unfold Fields.magnitude
  rw [exponent_fields, fraction_fields]
  generalize x.toModel.toBits.toBitVec = b at hx hsign
  split at hx
  · split at hx <;> cases hx
  rename_i hfull
  refine ⟨fun h => hfull (BitVec.eq_of_toNat_eq h), ?_⟩
  split at hx
  · rename_i hnone
    have hexponent : (@unpackExponent Format.binary64 b).toNat = 0 := congrArg BitVec.toNat hnone
    split at hx
    · cases hx
    · cases hx
      rw [if_pos hexponent, hexponent]
      exact ⟨rfl, hsign⟩
  · rename_i hsome
    have hexponent : (@unpackExponent Format.binary64 b).toNat ≠ 0 :=
      fun h => hsome (BitVec.eq_of_toNat_eq h)
    cases hx
    rw [if_neg hexponent, toNat_append_one]
    exact ⟨rfl, hsign⟩

theorem magnitude_fields_zero {x : Float} {sign : Sign} (hx : x.toModel.unpack = .zero sign) :
    (fields x).exponent ≠ 2047 ∧ (fields x).magnitude.mantissa = 0 := by
  unfold Float.Model.unpack at hx
  simp only [unpack, exponentBias_binary64] at hx
  unfold Fields.magnitude
  rw [exponent_fields, fraction_fields]
  generalize x.toModel.toBits.toBitVec = b at hx
  split at hx
  · split at hx <;> cases hx
  rename_i hfull
  refine ⟨fun h => hfull (BitVec.eq_of_toNat_eq h), ?_⟩
  split at hx
  · rename_i hnone
    have hexponent : (@unpackExponent Format.binary64 b).toNat = 0 := congrArg BitVec.toNat hnone
    split at hx
    · rename_i hmantissa
      rw [if_pos hexponent]
      exact congrArg BitVec.toNat hmantissa
    · cases hx
  · cases hx

/-- A double below a power of two has a magnitude below that power. -/
theorem mantissa_lt_of_below {k : Int} {x : Float} (hx : Below k x) :
    (fields x).exponent ≠ 2047 ∧
      (fields x).magnitude.mantissa < 2 ^ (k - (fields x).magnitude.power).toNat := by
  rw [Below] at hx
  cases hunpack : x.toModel.unpack with
  | infinity sign => exact (hunpack ▸ hx).elim
  | notANumber => exact (hunpack ▸ hx).elim
  | zero sign =>
    obtain ⟨hexponent, hmantissa⟩ := magnitude_fields_zero hunpack
    exact ⟨hexponent, hmantissa ▸ Nat.two_pow_pos _⟩
  | finite sign n e hn =>
    obtain ⟨hexponent, hmagnitude, -⟩ := magnitude_fields hunpack
    rw [hunpack] at hx
    rw [hmagnitude]
    exact ⟨hexponent, lt_two_pow_of_totalExponent_le hx⟩

/-! ### Whole numbers -/

theorem floor_toRat_lt {k : Nat} {m : Magnitude} (hm : m.mantissa < 2 ^ (k - m.power).toNat) :
    ∃ n : Nat, m.toRat.floor = n ∧ n < 2 ^ k := by
  unfold Magnitude.toRat
  split
  · rename_i hpower
    refine ⟨m.mantissa * 2 ^ m.power.toNat, Rat.floor_intCast _, ?_⟩
    rcases Nat.eq_zero_or_pos m.mantissa with hzero | hpos
    · rw [hzero, Nat.zero_mul]
      exact Nat.two_pow_pos k
    · have hexp : (k - m.power).toNat + m.power.toNat = k := by
        by_contra hne
        have hnone : (k - m.power).toNat = 0 := by omega
        rw [hnone] at hm
        omega
      calc m.mantissa * 2 ^ m.power.toNat
          < 2 ^ (k - m.power).toNat * 2 ^ m.power.toNat :=
            Nat.mul_lt_mul_of_pos_right hm (Nat.two_pow_pos _)
        _ = 2 ^ k := by rw [← Nat.pow_add, hexp]
  · rename_i hpower
    refine ⟨m.mantissa / 2 ^ (-m.power).toNat, ?_, ?_⟩
    · rw [Rat.mkRat_eq_div]
      exact Rat.floor_intCast_div_natCast _ _
    · refine Nat.div_lt_of_lt_mul ?_
      have hexp : (k - m.power).toNat = (-m.power).toNat + k := by omega
      rwa [← Nat.pow_add, ← hexp]

theorem truncate_of_below {k : Nat} {x : Float} (hx : Below k x) :
    ∃ n : Int, Scalar.truncate x = .ok n ∧ n.natAbs < 2 ^ k := by
  obtain ⟨hexponent, hmantissa⟩ := mantissa_lt_of_below hx
  obtain ⟨n, hfloor, hlt⟩ := floor_toRat_lt hmantissa
  have hexact : Scalar.exact x = .finite (fields x).negative (fields x).magnitude.toRat :=
    if_neg hexponent
  rw [Scalar.truncate, hexact]
  refine ⟨_, rfl, ?_⟩
  rw [hfloor]
  split
  · rwa [Int.natAbs_neg]
  · exact hlt

theorem below_half : Below 0 ((1 : Float) / 2) := by
  decide

theorem nearest_of_truncate {k : Nat} {x : Float}
    (hpos : Below k (x + 1 / 2)) (hneg : Below k (-x + 1 / 2)) :
    ∃ n : Int, Scalar.nearest x = .ok n ∧ n.natAbs < 2 ^ k := by
  unfold Scalar.nearest
  split
  · exact truncate_of_below hpos
  · obtain ⟨n, hn, hlt⟩ := truncate_of_below hneg
    refine ⟨-n, ?_, by rwa [Int.natAbs_neg]⟩
    rw [hn]
    rfl

/-- Rounding a number to the nearest whole one. -/
theorem nearest_of_below {k : Nat} {x : Float} (hx : Below k x) (hk : k ≤ 970) :
    ∃ n : Int, Scalar.nearest x = .ok n ∧ n.natAbs < 2 ^ (k + 2) := by
  have hhalf : Below k ((1 : Float) / 2) := below_half.mono (by omega)
  exact nearest_of_truncate (below_add hx hhalf (by omega) (by omega))
    (below_add (below_neg hx (by omega)) hhalf (by omega) (by omega))

/-- To add a half keeps every finite double finite. -/
theorem below_add_half {x : Float} (hx : Below 1024 x) : Below 1024 (x + 1 / 2) := by
  have hhalf : ((1 : Float) / 2).toModel.unpack =
      .finite .positive (2 ^ 52) (-53) (Nat.two_pow_pos 52) := rfl
  have hsum : (x + 1 / 2).toModel.unpack = unpack Format.binary64
      (pack Format.binary64 (add Format.binary64 x.toModel.unpack ((1 : Float) / 2).toModel.unpack)) :=
    rfl
  rw [Below, hsum, hhalf]
  exact (isRounded_add_half hx).isBelow_unpack_pack (by decide)

/-- Every finite double has a nearest whole number. -/
theorem nearest_of_finite {x : Float} (hx : Below 1024 x) : ∃ n : Int, Scalar.nearest x = .ok n := by
  obtain ⟨n, hn, -⟩ := @nearest_of_truncate 1024 x (below_add_half hx)
    (below_add_half (below_neg hx (by decide)))
  exact ⟨n, hn⟩

/-! ### Decimals -/

theorem below_toFloat {n : Nat} (hn : n < 2 ^ 53) : Below 54 n.toUInt64.toFloat := by
  have hsame : n.toUInt64.toNat = n := by
    rw [Nat.toUInt64_eq, UInt64.toNat_ofNat_of_lt' (lt_trans hn (by decide))]
  have hrounded : IsRounded 54 (normalize Format.binary64 (n.toUInt64.toNat : Int) 0 .positive) := by
    rw [hsame]
    exact @isRounded_normalize n 0 53 .positive hn (by decide) (by decide)
  exact hrounded.isBelow_unpack_pack (by decide)

theorem below_powerOfTen : ∀ e : Fin 23, Below 74 Float.exactlyRepresentablePowersOfTen[e] ∧
    AtLeast 1 Float.exactlyRepresentablePowersOfTen[e] := by
  decide

/-- Few digits and a small power of ten are multiplied or divided as doubles. -/
theorem below_ofScientific_of_small {n e : Nat} {negative : Bool} (hsmall : n < 2 ^ 53 ∧ e ≤ 22) :
    Below 129 (Float.ofScientific n negative e) := by
  obtain ⟨hbelow, hatLeast⟩ := below_powerOfTen ⟨e, by omega⟩
  unfold Float.ofScientific
  rw [dif_pos hsmall]
  cases negative with
  | true => exact (below_div (below_toFloat hsmall.1) hatLeast (by decide) (by decide)).mono (by decide)
  | false => exact below_mul (below_toFloat hsmall.1) hbelow (by decide) (by decide)

theorem below_ofInt {n : Int} (hn : n.natAbs < 2 ^ 53) : Below 129 (Float.ofInt n) := by
  cases n with
  | ofNat n => exact below_ofScientific_of_small ⟨hn, by decide⟩
  | negSucc n => exact below_neg (below_ofScientific_of_small ⟨hn, by decide⟩) (by decide)

theorem tooLarge_mul_two_pow (d : Nat) : Decimal.tooLarge * 2 ^ d = (2 ^ 54 - 1) * 2 ^ (970 + d) := by
  obtain ⟨t, ht, hlarge⟩ : ∃ t, t = 970 ∧ Decimal.tooLarge = (2 ^ 54 - 1) * 2 ^ t :=
    ⟨970, rfl, by decide +kernel⟩
  rw [← ht, hlarge, Nat.mul_assoc, ← Nat.pow_add]

theorem isRounded_of_lt_tooLarge {sign : Sign} {n : Nat} {e : Int} {accuracy : Accuracy} (he : e ≤ 0)
    (hn : n < Decimal.tooLarge * 2 ^ (-e).toNat) :
    IsRounded 1024 (roundWithAccuracy Format.binary64 sign n e accuracy) := by
  have hexp : (970 - e).toNat = 970 + (-e).toNat := by omega
  refine isRounded_of_lt (by omega) ?_
  rwa [hexp, ← tooLarge_mul_two_pow]

theorem isRounded_mul_of_lt {sign sign' : Sign} {n n' : Nat} {e e' : Int} {hn : 0 < n} {hn' : 0 < n'}
    (he : e + e' ≤ 0) (hlt : n * n' < Decimal.tooLarge * 2 ^ (-(e + e')).toNat) :
    IsRounded 1024 (mul Format.binary64 (.finite sign n e hn) (.finite sign' n' e' hn')) :=
  isRounded_of_lt_tooLarge he hlt

theorem isRounded_div_of_lt {sign sign' : Sign} {n n' : Nat} {hn : 0 < n} {hn' : 0 < n'}
    (hlt : n < Decimal.tooLarge * n') :
    IsRounded 1024 (div Format.binary64 (.finite sign n 0 hn) (.finite sign' n' 0 hn')) := by
  have hcore : div Format.binary64 (.finite sign n 0 hn) (.finite sign' n' 0 hn') =
      roundWithAccuracy Format.binary64 (sign / sign') (divCore Format.binary64 n 0 n' 0).1
        (divCore Format.binary64 n 0 n' 0).2.1 (divCore Format.binary64 n 0 n' 0).2.2 := rfl
  rw [hcore]
  simp only [divCore, Nat.shiftLeft_eq]
  generalize htarget : min (0 - 0)
    (Format.binary64.targetExponent (totalExponent n 0 - totalExponent n' 0)) = target
  have hexp : (0 - 0 - target).toNat = (-target).toNat := by omega
  refine isRounded_of_lt_tooLarge (by omega) (Nat.div_lt_of_lt_mul ?_)
  rw [hexp, ← Nat.mul_assoc, Nat.mul_comm n']
  exact Nat.mul_lt_mul_of_pos_right hlt (Nat.two_pow_pos _)

/-- Multiplying a whole number out does not leave the doubles if the number has a nearest double. -/
theorem isRounded_ofScientific_whole {n : Nat} (hn : n < Decimal.tooLarge) :
    IsRounded 1024 (ofScientific Format.binary64 n 0) := by
  unfold ofScientific
  split
  · exact isRounded_zero _ _
  split
  · exact absurd ‹_› (by decide)
  split
  · exact isRounded_zero _ _
  split
  · refine isRounded_mul_of_lt (by decide) ?_
    generalize Decimal.tooLarge = bound at hn ⊢
    change n <<< 53 * 1 < bound * 2 ^ 53
    rw [Nat.mul_one, Nat.shiftLeft_eq]
    exact Nat.mul_lt_mul_of_pos_right hn (Nat.two_pow_pos 53)
  · exact absurd (le_refl _) ‹_›

/-- Neither does dividing by a power of ten. -/
theorem isRounded_ofScientific_fraction {n a : Nat} (hn : n < Decimal.tooLarge * 10 ^ a) (ha : 0 < a) :
    IsRounded 1024 (ofScientific Format.binary64 n (-(a : Int))) := by
  unfold ofScientific
  split
  · exact isRounded_zero _ _
  split
  · rename_i hlarge
    have hpow : (2 : Int) ^ Format.binary64.exponentBits = 2048 := rfl
    omega
  split
  · exact isRounded_zero _ _
  split
  · omega
  · have hexp : (-(-(a : Int))).toNat = a := by omega
    refine isRounded_div_of_lt ?_
    rwa [hexp]

theorem below_ofScientific_whole {n : Nat} (hn : n < Decimal.tooLarge) :
    Below 1024 (Float.ofScientific n false 0) := by
  by_cases hsmall : n < 2 ^ 53 ∧ 0 ≤ 22
  · exact (below_ofScientific_of_small hsmall).mono (by decide)
  · unfold Float.ofScientific
    rw [dif_neg hsmall]
    exact (isRounded_ofScientific_whole hn).isBelow_unpack_pack (by decide)

theorem below_ofScientific_fraction {n a : Nat} (hn : n < Decimal.tooLarge * 10 ^ a) (ha : 0 < a) :
    Below 1024 (Float.ofScientific n true a) := by
  by_cases hsmall : n < 2 ^ 53 ∧ a ≤ 22
  · exact (below_ofScientific_of_small hsmall).mono (by decide)
  · have hneg : Int.negOfNat a = -(a : Int) := Int.negOfNat_eq
    unfold Float.ofScientific
    rw [dif_neg hsmall, if_pos rfl, hneg]
    exact (isRounded_ofScientific_fraction hn ha).isBelow_unpack_pack (by decide)

theorem lt_ten_pow_digitCount (n : Nat) : n < 10 ^ Decimal.digitCount n :=
  (Nat.length_toDigits_le_iff (by decide) Nat.length_toDigits_pos).mp (le_refl _)

/-- The numbers below which no digits are multiplied out. -/
theorem ten_pow_le_tooLarge {n : Nat} (hn : n ≤ 300) : 10 ^ n ≤ Decimal.tooLarge := by
  obtain ⟨t, ht, hle⟩ : ∃ t, t = 300 ∧ 10 ^ t ≤ Decimal.tooLarge := ⟨300, rfl, by decide +kernel⟩
  exact le_trans (Nat.pow_le_pow_right (by decide) (ht ▸ hn)) hle

/-- Few places before the point bound a number whose digits count a power of ten. -/
theorem lt_of_digitCount {n bound : Nat} {e : Int} {places : Nat} (hbound : 10 ^ places ≤ bound)
    (hplaces : Decimal.digitCount n + e ≤ places) : n * 10 ^ e.toNat < bound * 10 ^ (-e).toNat := by
  calc n * 10 ^ e.toNat
      < 10 ^ Decimal.digitCount n * 10 ^ e.toNat :=
        Nat.mul_lt_mul_of_pos_right (lt_ten_pow_digitCount n) (Nat.pow_pos (by decide))
    _ = 10 ^ (Decimal.digitCount n + e.toNat) := (Nat.pow_add _ _ _).symm
    _ ≤ 10 ^ (places + (-e).toNat) := Nat.pow_le_pow_right (by decide) (by omega)
    _ = 10 ^ places * 10 ^ (-e).toNat := Nat.pow_add _ _ _
    _ ≤ bound * 10 ^ (-e).toNat := Nat.mul_le_mul_right _ hbound

/-- A decimal that has a nearest double is below the bound, with its power of ten on either side. -/
theorem lt_tooLarge_of_isFinite {d : Decimal} (hd : d.isFinite = true) :
    d.digits * 10 ^ d.exponent.toNat < Decimal.tooLarge * 10 ^ (-d.exponent).toNat := by
  have hbound {places : Nat} (hplaces : places ≤ 300) := ten_pow_le_tooLarge hplaces
  unfold Decimal.isFinite at hd
  generalize Decimal.tooLarge = bound at hd hbound ⊢
  split at hd
  · rename_i hzero
    rw [hzero, zero_mul]
    exact Nat.mul_pos (hbound (Nat.zero_le _)) (Nat.pow_pos (by decide))
  dsimp only at hd
  split at hd
  · exact lt_of_digitCount (hbound (by decide : 299 ≤ 300)) (by omega)
  split at hd
  · exact absurd hd Bool.false_ne_true
  split at hd
  · have hnone : (-d.exponent).toNat = 0 := by omega
    rw [hnone, pow_zero, mul_one]
    exact of_decide_eq_true hd
  · have hnone : d.exponent.toNat = 0 := by omega
    rw [hnone, pow_zero, mul_one]
    exact of_decide_eq_true hd

theorem isFinite_of_lt {d : Decimal} {places : Nat} (hpos : 0 < places) (hlt : d.digits < 10 ^ places)
    (hplaces : places + d.exponent < 300) : d.isFinite = true := by
  have hcount : Decimal.digitCount d.digits ≤ places :=
    (Nat.length_toDigits_le_iff (by decide) hpos).mpr hlt
  unfold Decimal.isFinite
  split
  · rfl
  · exact if_pos (by omega)

theorem below_nearest {d : Decimal} (hd : d.isFinite = true) : Below 1024 (nearest d) := by
  have hlt := lt_tooLarge_of_isFinite hd
  have hzero : Below 1024 (0.0 : Float) := by decide
  have hsigned : ∀ x : Float, Below 1024 x → Below 1024 (if d.negative then -x else x) := by
    intro x hx
    split
    · exact below_neg hx (by decide)
    · exact hx
  refine hsigned _ ?_
  rw [hd, Bool.not_true, if_neg Bool.false_ne_true]
  split
  · exact hzero
  split
  · rename_i hexp
    have hnone : (-d.exponent).toNat = 0 := by omega
    refine below_ofScientific_whole ?_
    generalize Decimal.tooLarge = bound at hlt ⊢
    rwa [hnone, pow_zero, mul_one] at hlt
  · rename_i hexp
    have hnone : d.exponent.toNat = 0 := by omega
    refine below_ofScientific_fraction ?_ (by omega)
    generalize Decimal.tooLarge = bound at hlt ⊢
    rwa [hnone, pow_zero, mul_one] at hlt

theorem isNumber_nearest (d : Decimal) : IsNumber (nearest d) := by
  by_cases hd : d.isFinite = true
  · exact (below_nearest hd).isNumber
  · unfold nearest
    rw [eq_false_of_ne_true hd, Bool.not_false, if_pos rfl]
    cases d.negative with
    | false => exact UnpackedFloat.noConfusion
    | true => exact UnpackedFloat.noConfusion

end Swatch.Binary64
