import Swatch.Proofs.Number.Rational
import Swatch.Proofs.Number.Value

/-!
Computing with doubles as with the numbers they stand for: a sum, a difference, a product or a
quotient is off by a small step, two doubles compare as their values do, and rounding to a whole number
is rounding the value.
-/

namespace Swatch.Binary64

open Float.Model (Format UnpackedFloat totalExponent)
open Float.Model.UnpackedFloat

/-- A finite double and the number that it stands for. -/
structure HasValue (x : Float) (a : Rat) : Prop where
  proper : IsProper x.toModel.unpack
  value : value x.toModel.unpack = a

instance (x : Float) (a : Rat) : Decidable (HasValue x a) :=
  decidable_of_iff (IsProper x.toModel.unpack ∧ value x.toModel.unpack = a)
    ⟨fun h => ⟨h.1, h.2⟩, fun h => ⟨h.proper, h.value⟩⟩

theorem Below.hasValue {k : Int} {x : Float} (hx : Below k x) : ∃ a, HasValue x a :=
  ⟨_, isProper_unpack hx, rfl⟩

theorem Near.hasValue {u : UnpackedFloat} {x : Float} {a : Rat} (hu : Near u a)
    (hx : x.toModel.unpack = unpack Format.binary64 (pack Format.binary64 u)) :
    ∃ c, HasValue x c ∧ |c - a| ≤ step := by
  rw [unpack_pack hu.1] at hx
  exact ⟨value u, ⟨hx ▸ hu.1, congrArg Binary64.value hx⟩, hu.2⟩

theorem hasValue_zero : HasValue 0 0 := by
  decide

theorem hasValue_half : HasValue (1 / 2) (1 / 2) := by
  decide +kernel

/-- A number is a product with one, which is the first of the powers of ten. -/
theorem HasValue.mul_one {x : Float} {a : Rat} (hx : HasValue x a) :
    HasValue (x * Float.exactlyRepresentablePowersOfTen[0]) a := by
  have hone : Float.exactlyRepresentablePowersOfTen[0].toModel.unpack =
      .finite .positive (2 ^ 52) (-52) (Nat.two_pow_pos 52) := rfl
  have hunpack : (x * Float.exactlyRepresentablePowersOfTen[0]).toModel.unpack = unpack Format.binary64
      (pack Format.binary64 (mul Format.binary64 x.toModel.unpack
        Float.exactlyRepresentablePowersOfTen[0].toModel.unpack)) := rfl
  rw [hone, mul_one_eq hx.proper, unpack_pack hx.proper] at hunpack
  exact ⟨hunpack ▸ hx.proper, by rw [hunpack, hx.value]⟩

theorem hasValue_toFloat {n : Nat} (hn : n < 2 ^ 53) : HasValue n.toUInt64.toFloat n := by
  have hsame : n.toUInt64.toNat = n := by
    rw [Nat.toUInt64_eq, UInt64.toNat_ofNat_of_lt' (lt_trans hn (by decide))]
  obtain ⟨hproper, hvalue⟩ := value_normalize_whole hn
  have hunpack : n.toUInt64.toFloat.toModel.unpack = unpack Format.binary64
      (pack Format.binary64 (normalize Format.binary64 (n.toUInt64.toNat : Int) 0 .positive)) := rfl
  rw [hsame, unpack_pack hproper] at hunpack
  exact ⟨hunpack ▸ hproper, by rw [hunpack, hvalue]⟩

/-- A whole number of few digits is a double. -/
theorem hasValue_ofScientific {n : Nat} (hn : n < 2 ^ 53) : HasValue (Float.ofScientific n false 0) n := by
  unfold Float.ofScientific
  rw [dif_pos ⟨hn, by decide⟩]
  exact (hasValue_toFloat hn).mul_one

theorem hasValue_ofNat {n : Nat} (hn : n < 2 ^ 53) : HasValue (OfNat.ofNat n) (OfNat.ofNat n) :=
  hasValue_ofScientific hn

namespace HasValue

variable {x y : Float} {a b : Rat}

theorem unique (hx : HasValue x a) (hx' : HasValue x b) : a = b :=
  hx.value.symm.trans hx'.value

/-! ### Arithmetic -/

theorem neg (hx : HasValue x a) : HasValue (-x) (-a) := by
  have hunpack : (-x).toModel.unpack = x.toModel.unpack.neg := unpack_pack (isProper_neg hx.proper)
  exact ⟨hunpack ▸ isProper_neg hx.proper, by rw [hunpack, value_neg, hx.value]⟩

theorem add (hx : HasValue x a) (hy : HasValue y b) (hab : |a + b| ≤ 65536) :
    ∃ c, HasValue (x + y) c ∧ |c - (a + b)| ≤ step := by
  rw [← hx.value, ← hy.value] at hab ⊢
  exact (near_add hx.proper hy.proper (hab.trans_eq (by norm_num))).hasValue rfl

theorem sub (hx : HasValue x a) (hy : HasValue y b) (hab : |a - b| ≤ 65536) :
    ∃ c, HasValue (x - y) c ∧ |c - (a - b)| ≤ step := by
  have hunpack : (x - y).toModel.unpack = unpack Format.binary64 (pack Format.binary64
      (UnpackedFloat.sub Format.binary64 x.toModel.unpack y.toModel.unpack)) := rfl
  rw [Binary64.sub_eq_add_neg] at hunpack
  have hdifference : a - b = a + -b := by ring
  rw [hdifference] at hab ⊢
  rw [← hx.value, ← hy.value, ← value_neg] at hab ⊢
  exact (near_add hx.proper (isProper_neg hy.proper) (hab.trans_eq (by norm_num))).hasValue hunpack

theorem mul (hx : HasValue x a) (hy : HasValue y b) (hab : |a * b| ≤ 65536) :
    ∃ c, HasValue (x * y) c ∧ |c - a * b| ≤ step := by
  rw [← hx.value, ← hy.value] at hab ⊢
  exact (near_mul hx.proper hy.proper (hab.trans_eq (by norm_num))).hasValue rfl

theorem div (hx : HasValue x a) (hy : HasValue y b) (hb : b ≠ 0) (hab : |a / b| ≤ 65536) :
    ∃ c, HasValue (x / y) c ∧ |c - a / b| ≤ step := by
  rw [← hx.value, ← hy.value] at hab ⊢
  rw [← hy.value] at hb
  exact (near_div hx.proper hy.proper hb (hab.trans_eq (by norm_num))).hasValue rfl

theorem below (hx : HasValue x a) {k : Int} (ha : |a| ≤ 2 ^ k) : Below (k + 1) x := by
  obtain ⟨hproper, hvalue⟩ := hx
  unfold Below
  cases hunpack : x.toModel.unpack with
  | zero sign => trivial
  | infinity sign => exact (hunpack ▸ hproper).elim
  | notANumber => exact (hunpack ▸ hproper).elim
  | finite sign n e hn =>
    rw [hunpack] at hvalue
    have hmagnitude : (n : Rat) * 2 ^ e ≤ 2 ^ k := by
      rw [← hvalue] at ha
      simp only [Binary64.value] at ha
      rwa [cast_apply, mul_assoc, abs_mul, abs_apply_one, one_mul, abs_of_nonneg (by positivity)] at ha
    have hlog := log2_add_le_of_le hn hmagnitude
    change (n.log2 : Int) + 1 + e ≤ k + 1
    omega

end HasValue

/-! ### Comparing -/

/-- Of two mantissas as doubles have them, the one with the greater exponent is the greater number. -/
theorem mul_zpow_lt {n n' : Nat} {e e' : Int} (hn : n < 2 ^ 53) (hn' : 2 ^ 52 ≤ n') (he : e < e') :
    (n : Rat) * 2 ^ e < n' * 2 ^ e' := by
  have hlow : (n : Rat) < 2 ^ 53 := by exact_mod_cast hn
  have hhigh : (2 : Rat) ^ 52 ≤ n' := by exact_mod_cast hn'
  calc (n : Rat) * 2 ^ e
      < 2 ^ 53 * 2 ^ e := mul_lt_mul_of_pos_right hlow (two_zpow_pos e)
    _ = 2 ^ 52 * 2 ^ (e + 1) := by rw [two_zpow_add]; ring
    _ ≤ 2 ^ 52 * 2 ^ e' := mul_le_mul_of_nonneg_left (two_zpow_le (by omega)) (by positivity)
    _ ≤ n' * 2 ^ e' := mul_le_mul_of_nonneg_right hhigh (two_zpow_pos e').le

theorem compare_magnitudes {n n' : Nat} {e e' : Int} {sign sign' : Sign} {hn : 0 < n} {hn' : 0 < n'}
    (hu : IsProper (.finite sign n e hn)) (hv : IsProper (.finite sign' n' e' hn')) :
    (compare e e').then (compare n n') = compare ((n : Rat) * 2 ^ e) (n' * 2 ^ e') := by
  obtain ⟨hlt, hlow, -, hlong⟩ := hu
  obtain ⟨hlt', hlow', -, hlong'⟩ := hv
  rcases lt_trichotomy e e' with he | rfl | he
  · have hmagnitude := @mul_zpow_lt n n' e e' hlt (hlong'.resolve_right (by omega)) he
    rw [compare_lt_iff_lt.mpr he, compare_lt_iff_lt.mpr hmagnitude]
    rfl
  · have hcompare : compare ((n : Rat) * 2 ^ e) (n' * 2 ^ e) = compare n n' := by
      have hunit := two_zpow_pos e
      rcases lt_trichotomy n n' with hlt | rfl | hgt
      · have hcast : (n : Rat) < n' := Nat.cast_lt.mpr hlt
        rw [compare_lt_iff_lt.mpr hlt, compare_lt_iff_lt.mpr (mul_lt_mul_of_pos_right hcast hunit)]
      · rw [compare_eq_iff_eq.mpr rfl, compare_eq_iff_eq.mpr rfl]
      · have hcast : (n' : Rat) < n := Nat.cast_lt.mpr hgt
        rw [compare_gt_iff_gt.mpr hgt, compare_gt_iff_gt.mpr (mul_lt_mul_of_pos_right hcast hunit)]
    rw [compare_eq_iff_eq.mpr rfl, hcompare]
    rfl
  · have hmagnitude := @mul_zpow_lt n' n e' e hlt' (hlong.resolve_right (by omega)) he
    rw [compare_gt_iff_gt.mpr he, compare_gt_iff_gt.mpr hmagnitude]
    rfl

theorem compare_neg_neg (a b : Rat) : compare (-a) (-b) = (compare a b).swap := by
  rcases lt_trichotomy a b with hlt | rfl | hgt
  · rw [compare_lt_iff_lt.mpr hlt, compare_gt_iff_gt.mpr (neg_lt_neg hlt)]
    rfl
  · rw [compare_eq_iff_eq.mpr rfl, compare_eq_iff_eq.mpr rfl]
    rfl
  · rw [compare_gt_iff_gt.mpr hgt, compare_lt_iff_lt.mpr (neg_lt_neg hgt)]
    rfl

theorem value_positive {n : Nat} {e : Int} {hn : 0 < n} :
    value (.finite .positive n e hn) = n * 2 ^ e :=
  rfl

theorem value_negative {n : Nat} {e : Int} {hn : 0 < n} :
    value (.finite .negative n e hn) = -(n * 2 ^ e) := by
  change ((-(n : Int) : Int) : Rat) * 2 ^ e = _
  rw [Int.cast_neg, Int.cast_natCast, neg_mul]

/-- Comparing doubles is comparing the numbers that they stand for. -/
theorem compare_eq {u v : UnpackedFloat} (hu : IsProper u) (hv : IsProper v) :
    UnpackedFloat.compare u v = some (compare (value u) (value v)) := by
  have hpositive {n : Nat} {e : Int} (hn : 0 < n) : (0 : Rat) < n * 2 ^ e := by positivity
  cases u with
  | infinity sign => exact hu.elim
  | notANumber => exact hu.elim
  | zero sign =>
    cases v with
    | infinity sign' => exact hv.elim
    | notANumber => exact hv.elim
    | zero sign' => rfl
    | finite sign' n e hn =>
      cases sign' with
      | negative =>
        rw [value_zero, value_negative, compare_gt_iff_gt.mpr (neg_lt_zero.mpr (hpositive hn))]
        rfl
      | positive =>
        rw [value_zero, value_positive, compare_lt_iff_lt.mpr (hpositive hn)]
        rfl
  | finite sign n e hn =>
    cases v with
    | infinity sign' => exact hv.elim
    | notANumber => exact hv.elim
    | zero sign' =>
      cases sign with
      | negative =>
        rw [value_zero, value_negative, compare_lt_iff_lt.mpr (neg_lt_zero.mpr (hpositive hn))]
        rfl
      | positive =>
        rw [value_zero, value_positive, compare_gt_iff_gt.mpr (hpositive hn)]
        rfl
    | finite sign' n' e' hn' =>
      have hmagnitudes := compare_magnitudes hu hv
      cases sign with
      | negative =>
        cases sign' with
        | negative =>
          rw [value_negative, value_negative, compare_neg_neg, ← hmagnitudes]
          rfl
        | positive =>
          rw [value_negative, value_positive, compare_lt_iff_lt.mpr
            (lt_trans (neg_lt_zero.mpr (hpositive hn)) (hpositive hn'))]
          rfl
      | positive =>
        cases sign' with
        | negative =>
          rw [value_negative, value_positive, compare_gt_iff_gt.mpr
            (lt_trans (neg_lt_zero.mpr (hpositive hn')) (hpositive hn))]
          rfl
        | positive =>
          rw [value_positive, value_positive, ← hmagnitudes]
          rfl

namespace HasValue

variable {x y : Float} {a b : Rat}

theorem compare_eq (hx : HasValue x a) (hy : HasValue y b) :
    UnpackedFloat.compare x.toModel.unpack y.toModel.unpack = some (compare a b) := by
  rw [Binary64.compare_eq hx.proper hy.proper, hx.value, hy.value]

theorem lt_iff (hx : HasValue x a) (hy : HasValue y b) : x < y ↔ a < b := by
  rw [lt_iff_compare, hx.compare_eq hy, Option.some_inj, compare_lt_iff_lt]

theorem le_iff (hx : HasValue x a) (hy : HasValue y b) : x ≤ y ↔ a ≤ b := by
  have hmodel : x ≤ y ↔ UnpackedFloat.le x.toModel.unpack y.toModel.unpack = true := by
    change decide (x.toModel ≤ y.toModel) = true ↔ _
    rw [decide_eq_true_iff]
    exact Iff.rfl
  rw [hmodel, UnpackedFloat.le, hx.compare_eq hy, Option.any_some, Ordering.isLE_iff_ne_gt,
    not_congr compare_gt_iff_gt, not_lt]

theorem beq_eq (hx : HasValue x a) (hy : HasValue y b) : (x == y) = decide (a = b) := by
  have hmodel : (x == y) = UnpackedFloat.beq x.toModel.unpack y.toModel.unpack := rfl
  rw [hmodel, UnpackedFloat.beq, hx.compare_eq hy, Bool.eq_iff_iff, beq_iff_eq, Option.some_inj,
    compare_eq_iff_eq, decide_eq_true_iff]

end HasValue

/-! ### Whole numbers -/

namespace HasValue

variable {x : Float} {a : Rat}

/-- The exact number of a double is its value, with a sign that tells whether it is less than zero. -/
theorem exact_eq (hx : HasValue x a) :
    Binary64.exact x = .finite (fields x).negative |a| ∧
      (a ≠ 0 → ((fields x).negative = true ↔ a < 0)) := by
  obtain ⟨hproper, rfl⟩ := hx
  have hexact (hexponent : (fields x).exponent ≠ 2047) :
      Binary64.exact x = .finite (fields x).negative (fields x).magnitude.toRat := if_neg hexponent
  cases hunpack : x.toModel.unpack with
  | infinity sign => exact (hunpack ▸ hproper).elim
  | notANumber => exact (hunpack ▸ hproper).elim
  | zero sign =>
    obtain ⟨hexponent, hmantissa⟩ := magnitude_fields_zero hunpack
    refine ⟨?_, fun hne => absurd rfl hne⟩
    rw [hexact hexponent, Magnitude.toRat_eq, hmantissa, value_zero, abs_zero, Nat.cast_zero, zero_mul]
  | finite sign n e hn =>
    obtain ⟨hexponent, hmagnitude, hnegative⟩ := magnitude_fields hunpack
    have hpos : (0 : Rat) < n * 2 ^ e := by positivity
    refine ⟨(hexact hexponent).trans ?_, fun _ => hnegative.trans ?_⟩
    · rw [hmagnitude, Magnitude.toRat_eq]
      cases sign with
      | negative => rw [value_negative, abs_neg, abs_of_pos hpos]
      | positive => rw [value_positive, abs_of_pos hpos]
    · cases sign with
      | negative => simp [value_negative, hpos]
      | positive => simp [value_positive, hpos.le]

/-- The whole part of a double is that of its value. -/
theorem truncate_eq (hx : HasValue x a) : Scalar.truncate x = Scalar.truncate a := by
  obtain ⟨hexact, hnegative⟩ := hx.exact_eq
  have htruncate : Scalar.truncate x = .ok (if (fields x).negative then -⌊|a|⌋ else ⌊|a|⌋) := by
    have hsame : (Scalar.exact x : Extended) = .finite (fields x).negative |a| := hexact
    rw [Scalar.truncate, hsame]
    rfl
  rw [htruncate, Scalar.truncate_rat]
  by_cases hzero : a = 0
  · subst hzero
    cases (fields x).negative <;> rfl
  rcases lt_or_ge a 0 with hneg | hpos
  · rw [if_pos ((hnegative hzero).mpr hneg), if_pos hneg, abs_of_neg hneg]
  · rw [if_neg fun h => not_lt.mpr hpos ((hnegative hzero).mp h), if_neg (not_lt.mpr hpos),
      abs_of_nonneg hpos]

/-- The nearest whole number of a double is as near to its value, but for a small step. -/
theorem nearest (hx : HasValue x a) (ha : |a| ≤ 65535) :
    ∃ n : Int, Scalar.nearest x = .ok n ∧ |(n : Rat) - a| ≤ 1 / 2 + step := by
  have hstep : step < 1 / 2 := by norm_num [step]
  have hraised {y : Float} {b : Rat} (hy : HasValue y b) (hb : 0 ≤ b) (hb' : b ≤ 65535) :
      ∃ n : Int, Scalar.truncate (y + 1 / 2) = .ok n ∧ |(n : Rat) - b| ≤ 1 / 2 + step := by
    obtain ⟨c, hc, hnear⟩ := hy.add hasValue_half (abs_le.mpr ⟨by linarith, by linarith⟩)
    obtain ⟨hlow, hhigh⟩ := abs_le.mp hnear
    refine ⟨⌊c⌋, ?_, ?_⟩
    · rw [hc.truncate_eq, Scalar.truncate_rat, if_neg (by linarith)]
    · have hfloor := Int.floor_le c
      have hceil := Int.lt_floor_add_one c
      exact abs_le.mpr ⟨by linarith, by linarith⟩
  obtain ⟨halow, hahigh⟩ := abs_le.mp ha
  unfold Scalar.nearest
  by_cases hsign : 0 ≤ a
  · rw [if_pos ((hasValue_zero.le_iff hx).mpr hsign)]
    exact hraised hx hsign hahigh
  · rw [if_neg fun h => hsign ((hasValue_zero.le_iff hx).mp h)]
    obtain ⟨n, hn, hnear⟩ := hraised hx.neg (by linarith) (by linarith)
    refine ⟨-n, by rw [hn]; rfl, ?_⟩
    have hflip : ((-n : Int) : Rat) - a = -((n : Rat) - -a) := by
      push_cast
      ring
    rwa [hflip, abs_neg]

/-- A number, which may be infinite, is clamped to a finite one. -/
theorem clamp {x high : Float} {h : Rat} {k : Int} (hx : IsNumber x) (hpositive : IsPositive k high)
    (hhigh : HasValue high h) (hh : 0 ≤ h) :
    ∃ c, HasValue (Scalar.clamp x 0 high) c ∧ 0 ≤ c ∧ c ≤ h := by
  obtain ⟨c, hc⟩ := (below_clamp hx hpositive).hasValue
  have hraised : ¬Scalar.greater x 0 < 0 := by
    unfold Scalar.greater
    split
    · exact mt (hasValue_zero.lt_iff hasValue_zero).mp (lt_irrefl 0)
    · assumption
  refine ⟨c, hc, ?_⟩
  unfold Scalar.clamp Scalar.smaller at hc
  split at hc
  · rw [hc.unique hhigh]
    exact ⟨hh, le_refl h⟩
  · rename_i hle
    exact ⟨not_lt.mp (mt (hc.lt_iff hasValue_zero).mpr hraised), not_lt.mp (mt (hhigh.lt_iff hc).mpr hle)⟩

end HasValue

end Swatch.Binary64
