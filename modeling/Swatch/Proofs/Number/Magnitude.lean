import Swatch.Number.Binary64
import Swatch.Proofs.Number.Rounding

/-!
Doubles that stay numbers. Each operation on doubles below a power of two gives a double below some
greater power of two, so what is computed from bounded doubles is never infinite.
-/

namespace Swatch.Binary64

open Float.Model (Format UnpackedFloat totalExponent)
open Float.Model.UnpackedFloat

/-! ### Packing and unpacking -/

theorem exponentBias_binary64 : Format.binary64.exponentBias = 1023 :=
  rfl

/-- Fields whose exponent is not full are those of a number, which its exponent bounds. -/
theorem isBelow_unpack_packComponents {sign : Sign} {exponent : BitVec 11} {mantissa : BitVec 52}
    {k : Int} (hk : -1022 ≤ k) (hfull : exponent ≠ -1#11) (hnormal : (exponent.toNat : Int) - 1022 ≤ k) :
    IsBelow k (unpack Format.binary64 (packComponents Format.binary64 sign exponent mantissa)) := by
  have hmantissa := mantissa.isLt
  by_cases hzero : exponent = 0#11
  · subst hzero
    by_cases hnone : mantissa = 0#52
    · simp [unpack, hnone, IsBelow]
    · have hpos : 0 < mantissa.toNat := Nat.pos_of_ne_zero fun h => hnone (BitVec.eq_of_toNat_eq h)
      have hle : totalExponent mantissa.toNat (-1074) ≤ k := by
        refine totalExponent_le_of_lt hpos (lt_of_lt_of_le hmantissa ?_)
        exact Nat.pow_le_pow_right (by decide) (by omega)
      simpa [unpack, hnone, IsBelow, exponentBias_binary64] using hle
  · have hsum : (1#1 ++ mantissa).toNat < 2 ^ 53 := (1#1 ++ mantissa).isLt
    have hpos : 0 < (1#1 ++ mantissa).toNat := by
      rw [BitVec.toNat_append]
      exact Nat.pos_of_ne_zero fun h => by simp at h
    have hle : totalExponent (1#1 ++ mantissa).toNat (exponent.toNat - 1075) ≤ k := by
      refine totalExponent_le_of_lt hpos (lt_of_lt_of_le hsum ?_)
      exact Nat.pow_le_pow_right (by decide) (by omega)
    have hfull' : exponent ≠ 2047#11 := hfull
    simpa [unpack, hfull', hzero, IsBelow, exponentBias_binary64] using hle

theorem IsRounded.isBelow_unpack_pack {k : Int} {u : UnpackedFloat} (hu : IsRounded k u)
    (hk : -1022 ≤ k) : IsBelow k (unpack Format.binary64 (pack Format.binary64 u)) := by
  obtain ⟨hbelow, hexponent⟩ := hu
  have hzero : ∀ sign mantissa,
      IsBelow k (unpack Format.binary64 (packComponents Format.binary64 sign 0#11 mantissa)) :=
    fun sign mantissa => isBelow_unpack_packComponents hk (by decide) (by simpa using hk)
  cases u with
  | infinity sign => exact hbelow.elim
  | notANumber => exact hbelow.elim
  | zero sign => exact hzero sign 0#52
  | finite sign n e hn =>
    have he := hexponent sign n e hn rfl
    have hbelow' : (n.log2 : Int) + 1 + e ≤ k := hbelow
    simp only [pack]
    split
    · rename_i hoverflow
      have hoverflow' : 2 ^ 11 ≤ (e + 1023 + 52).toNat + 1 := hoverflow
      omega
    · rename_i hfits
      have hfits' : ¬2 ^ 11 ≤ (e + 1023 + 52).toNat + 1 := hfits
      split
      · rename_i hnormal
        have hbits : n.log2 + 1 = 53 := hnormal
        have hfield : (BitVec.ofNat 11 (e + 1023 + 52).toNat).toNat = (e + 1023 + 52).toNat :=
          (BitVec.toNat_ofNat _ _).trans (Nat.mod_eq_of_lt (by omega))
        refine isBelow_unpack_packComponents hk (fun hfull => ?_) ?_
        · have htop : (e + 1023 + 52).toNat = 2047 := hfield.symm.trans (congrArg BitVec.toNat hfull)
          omega
        · have hfield' : (((BitVec.ofNat 11 (e + 1023 + 52).toNat).toNat : Nat) : Int) - 1022 ≤ k := by
            rw [hfield]
            omega
          exact hfield'
      · exact hzero sign _

/-- The mantissa and the exponent of a double. -/
theorem bounds_of_unpack {b : BitVec 64} {sign : Sign} {n : Nat} {e : Int} {hn : 0 < n}
    (hb : unpack Format.binary64 b = .finite sign n e hn) : n < 2 ^ 53 ∧ e ≤ 971 := by
  have hexponent : (@unpackExponent Format.binary64 b).toNat < 2 ^ 11 := BitVec.isLt _
  simp only [unpack, exponentBias_binary64] at hb
  split at hb
  · split at hb
    · cases hb
    · cases hb
  · rename_i hfull
    have hfull' : (@unpackExponent Format.binary64 b).toNat ≠ 2047 :=
      fun h => hfull (BitVec.eq_of_toNat_eq h)
    split at hb
    · rename_i hzero
      split at hb
      · cases hb
      · cases hb
        have hnone : (@unpackExponent Format.binary64 b).toNat = 0 := congrArg BitVec.toNat hzero
        refine ⟨lt_trans (BitVec.isLt _) (by decide), ?_⟩
        rw [hnone]
        decide
    · cases hb
      refine ⟨BitVec.isLt _, ?_⟩
      change ((@unpackExponent Format.binary64 b).toNat : Int) - (1023 + 52) ≤ 971
      omega

/-- The exponent alone bounds a double. -/
theorem isBelow_of_unpack {b : BitVec 64} {sign : Sign} {n : Nat} {e k : Int} {hn : 0 < n}
    (hb : unpack Format.binary64 b = .finite sign n e hn) (hk : e + 53 ≤ k) :
    IsBelow k (unpack Format.binary64 b) := by
  rw [hb]
  refine totalExponent_le_of_lt hn (lt_of_lt_of_le (bounds_of_unpack hb).1 ?_)
  exact Nat.pow_le_pow_right (by decide) (by omega)

/-! ### Operations -/

theorem log2_shiftLeft {n : Nat} (hn : n ≠ 0) (d : Nat) : (n <<< d).log2 = n.log2 + d := by
  induction d with
  | zero => rfl
  | succ d ih =>
    have hne : n <<< d ≠ 0 := by
      rw [Nat.shiftLeft_eq]
      exact Nat.mul_ne_zero hn (Nat.two_pow_pos d).ne'
    have hdouble : n <<< (d + 1) = 2 * n <<< d := by
      rw [Nat.shiftLeft_eq, Nat.shiftLeft_eq, Nat.pow_succ, ← Nat.mul_assoc, Nat.mul_comm]
    rw [hdouble, Nat.log2_two_mul hne, ih]
    rfl

theorem totalExponent_shiftLeft {n : Nat} (hn : 0 < n) (d : Nat) (e : Int) :
    totalExponent (n <<< d) (e - d) = totalExponent n e := by
  simp only [totalExponent, log2_shiftLeft hn.ne']
  push_cast
  omega

theorem isRounded_round {sign : Sign} {n : Nat} {e k : Int} (hpos : 0 < n) (hn : totalExponent n e ≤ k)
    (hk : k ≤ 971) (hmin : -1074 ≤ k) : IsRounded (k + 1) (round Format.binary64 sign n e) :=
  isRounded_roundWithAccuracy (by rwa [totalExponent_shiftLeft hpos]) hk hmin

theorem isRounded_round_of_lt {sign : Sign} {n : Nat} {e : Int} (he : e ≤ 970)
    (hn : n < (2 ^ 54 - 1) * 2 ^ (970 - e).toNat) :
    IsRounded 1024 (round Format.binary64 sign n e) := by
  rw [UnpackedFloat.round]
  generalize Format.binary64.targetExponent (totalExponent n e) = target
  simp only [decreaseExponent, Nat.shiftLeft_eq]
  generalize (e - target).toNat = d
  refine isRounded_of_lt (by omega) ?_
  have hpow : (970 - (e - d)).toNat = (970 - e).toNat + d := by omega
  rw [hpow, Nat.pow_add, ← Nat.mul_assoc]
  exact Nat.mul_lt_mul_of_pos_right hn (Nat.two_pow_pos d)

theorem IsBelow.isRounded {k : Int} {u : UnpackedFloat} (hu : IsBelow k u) (hk : k ≤ 972) :
    IsRounded k u := by
  refine ⟨hu, fun sign n e hn heq => ?_⟩
  subst heq
  have htotal : (n.log2 : Int) + 1 + e ≤ k := hu
  omega

theorem normalize_cases (m e : Int) (sign : Sign) :
    m = 0 ∧ normalize Format.binary64 m e sign = .zero sign ∨
      0 < m.natAbs ∧ ∃ sign' : Sign, sign'.apply m.natAbs = m ∧
        normalize Format.binary64 m e sign = round Format.binary64 sign' m.natAbs e := by
  rcases lt_trichotomy m 0 with hlt | rfl | hgt
  · have hcompare : compare m 0 = .lt := Int.compare_eq_lt.mpr hlt
    have habs : (-m).toNat = m.natAbs := by omega
    have hsigned : Sign.negative.apply m.natAbs = m := by
      change -(m.natAbs : Int) = m
      omega
    simp only [UnpackedFloat.normalize, hcompare, habs]
    exact .inr ⟨by omega, .negative, hsigned, rfl⟩
  · exact .inl ⟨rfl, rfl⟩
  · have hcompare : compare m 0 = .gt := Int.compare_eq_gt.mpr hgt
    have habs : m.toNat = m.natAbs := by omega
    have hsigned : Sign.positive.apply m.natAbs = m := by
      change (m.natAbs : Int) = m
      omega
    simp only [UnpackedFloat.normalize, hcompare, habs]
    exact .inr ⟨by omega, .positive, hsigned, rfl⟩

theorem IsRounded.mono {k l : Int} {u : UnpackedFloat} (hu : IsRounded k u) (hkl : k ≤ l) :
    IsRounded l u :=
  ⟨hu.1.mono hkl, hu.2⟩

theorem isRounded_zero (k : Int) (sign : Sign) : IsRounded k (.zero sign) :=
  ⟨trivial, fun _ _ _ _ heq => by cases heq⟩

theorem isRounded_normalize {m e k : Int} {sign : Sign} (hm : m.natAbs < 2 ^ (k - e).toNat)
    (hk : k ≤ 971) (hmin : -1074 ≤ k) : IsRounded (k + 1) (normalize Format.binary64 m e sign) := by
  rcases normalize_cases m e sign with ⟨-, hzero⟩ | ⟨hpos, sign', -, hround⟩
  · rw [hzero]
    exact isRounded_zero _ _
  · rw [hround]
    exact isRounded_round hpos (totalExponent_le_of_lt hpos hm) hk hmin

theorem isRounded_normalize_of_lt {m e : Int} {sign : Sign} (he : e ≤ 970)
    (hm : m.natAbs < (2 ^ 54 - 1) * 2 ^ (970 - e).toNat) :
    IsRounded 1024 (normalize Format.binary64 m e sign) := by
  rcases normalize_cases m e sign with ⟨-, hzero⟩ | ⟨-, sign', -, hround⟩
  · rw [hzero]
    exact isRounded_zero _ _
  · rw [hround]
    exact isRounded_round_of_lt he hm

theorem natAbs_apply (sign : Sign) (n : Nat) : (sign.apply n).natAbs = n := by
  cases sign
  · exact Int.natAbs_neg _
  · rfl

/-- A mantissa that is moved to a smaller exponent. -/
theorem fst_decreaseExponent_lt {n : Nat} {e target k : Int} (hn : 0 < n) (hk : totalExponent n e ≤ k)
    (htarget : target ≤ e) : (decreaseExponent n e target).1 < 2 ^ (k - target).toNat := by
  have hsame := totalExponent_shiftLeft hn (e - target).toNat e
  have hexponent : e - ((e - target).toNat : Int) = target := by omega
  rw [hexponent] at hsame
  exact lt_two_pow_of_totalExponent_le (hsame.trans_le hk)

section Operations

variable {j k : Int} {u v : UnpackedFloat}

theorem isBelow_neg (hu : IsBelow k u) : IsBelow k u.neg := by
  cases u with
  | infinity sign => exact hu.elim
  | notANumber => exact hu.elim
  | zero sign => trivial
  | finite sign n e hn => exact hu

theorem isRounded_add (hu : IsBelow k u) (hv : IsBelow k v) (hk : k ≤ 970) (hmin : -1074 ≤ k) :
    IsRounded (k + 2) (add Format.binary64 u v) := by
  cases u with
  | infinity sign => exact hu.elim
  | notANumber => exact hu.elim
  | zero sign =>
    cases v with
    | infinity sign => exact hv.elim
    | notANumber => exact hv.elim
    | zero sign' =>
      simp only [add]
      split
      · exact isRounded_zero _ _
      · exact isRounded_zero _ _
    | finite sign' n e hn => exact (hv.mono (by omega)).isRounded (by omega)
  | finite sign n e hn =>
    cases v with
    | infinity sign => exact hv.elim
    | notANumber => exact hv.elim
    | zero sign' => exact (hu.mono (by omega)).isRounded (by omega)
    | finite sign' n' e' hn' =>
      have hfirst := fst_decreaseExponent_lt hn hu (Int.min_le_left e e')
      have hsecond := fst_decreaseExponent_lt hn' hv (Int.min_le_right e e')
      have hsum := Int.natAbs_add_le (sign.apply (decreaseExponent n e (min e e')).1)
        (sign'.apply (decreaseExponent n' e' (min e e')).1)
      rw [natAbs_apply, natAbs_apply] at hsum
      have htotal : (n.log2 : Int) + 1 + e ≤ k := hu
      have hpow : (k + 1 - min e e').toNat = (k - min e e').toNat + 1 := by omega
      have hk2 : k + 2 = k + 1 + 1 := by omega
      rw [hk2]
      refine isRounded_normalize (lt_of_le_of_lt hsum ?_) (by omega) (by omega)
      rw [hpow, Nat.pow_succ]
      omega

theorem sub_eq_add_neg (u v : UnpackedFloat) :
    sub Format.binary64 u v = add Format.binary64 u v.neg := by
  have happly : ∀ (sign : Sign) (m : Int), (-sign).apply m = -sign.apply m := by
    rintro (_ | _) m
    · exact (Int.neg_neg m).symm
    · rfl
  cases u <;> cases v
  case finite.finite =>
    simp only [sub, add, UnpackedFloat.neg, happly, Int.sub_eq_add_neg]
  all_goals rfl

theorem isRounded_sub (hu : IsBelow k u) (hv : IsBelow k v) (hk : k ≤ 970) (hmin : -1074 ≤ k) :
    IsRounded (k + 2) (sub Format.binary64 u v) := by
  rw [sub_eq_add_neg]
  exact isRounded_add hu (isBelow_neg hv) hk hmin

theorem isRounded_mul (hu : IsBelow j u) (hv : IsBelow k v) (hjk : j + k ≤ 971)
    (hmin : -1074 ≤ j + k) : IsRounded (j + k + 1) (mul Format.binary64 u v) := by
  cases u with
  | infinity sign => exact hu.elim
  | notANumber => exact hu.elim
  | zero sign =>
    cases v with
    | infinity sign => exact hv.elim
    | notANumber => exact hv.elim
    | zero sign' => exact isRounded_zero _ _
    | finite sign' n e hn => exact isRounded_zero _ _
  | finite sign n e hn =>
    cases v with
    | infinity sign => exact hv.elim
    | notANumber => exact hv.elim
    | zero sign' => exact isRounded_zero _ _
    | finite sign' n' e' hn' =>
      have hn1 : n < 2 ^ (j - e).toNat := lt_two_pow_of_totalExponent_le hu
      have hn2 : n' < 2 ^ (k - e').toNat := lt_two_pow_of_totalExponent_le hv
      have htotal : (n.log2 : Int) + 1 + e ≤ j := hu
      have htotal' : (n'.log2 : Int) + 1 + e' ≤ k := hv
      refine isRounded_roundWithAccuracy ?_ hjk hmin
      refine totalExponent_le_of_lt (Nat.mul_pos hn hn') ?_
      have hpow : (j + k - (e + e')).toNat = (j - e).toNat + (k - e').toNat := by omega
      rw [hpow, Nat.pow_add]
      exact Nat.mul_lt_mul'' hn1 hn2

/-- To divide by a number that is not less than `2 ^ (j - 1)`. -/
theorem isRounded_div {sign : Sign} {n : Nat} {e : Int} {hn : 0 < n} (hu : IsBelow k u)
    (hj : j ≤ totalExponent n e) (hjk : k - j ≤ 969) (hmin : -1074 ≤ k - j) :
    IsRounded (k - j + 2) (div Format.binary64 u (.finite sign n e hn)) := by
  cases u with
  | infinity sign => exact hu.elim
  | notANumber => exact hu.elim
  | zero sign => exact isRounded_zero _ _
  | finite sign' n' e' hn' =>
    have hcore : div Format.binary64 (.finite sign' n' e' hn') (.finite sign n e hn) =
        roundWithAccuracy Format.binary64 (sign' / sign) (divCore Format.binary64 n' e' n e).1
          (divCore Format.binary64 n' e' n e).2.1 (divCore Format.binary64 n' e' n e).2.2 := rfl
    have hj2 : k - j + 2 = k - j + 1 + 1 := by omega
    rw [hcore, hj2]
    refine isRounded_roundWithAccuracy ?_ (by omega) (by omega)
    simp only [divCore, targetExponent_binary64, Nat.shiftLeft_eq]
    have hk' : totalExponent n' e' ≤ k := hu
    generalize htarget :
      min (e' - e) (max (totalExponent n' e' - totalExponent n e - 53) (-1074)) = target
    have hlarge : target ≤ k - j := by omega
    rcases Nat.eq_zero_or_pos (n' * 2 ^ (e' - e - target).toNat / n) with hzero | hpos
    · rw [hzero]
      simp only [totalExponent, Nat.log2_zero]
      omega
    · refine totalExponent_le_of_lt hpos (Nat.div_lt_of_lt_mul ?_)
      have hfirst : n' < 2 ^ (k - e').toNat := lt_two_pow_of_totalExponent_le hk'
      have hsecond : 2 ^ n.log2 ≤ n := Nat.log2_self_le hn.ne'
      simp only [totalExponent] at hj hk'
      calc n' * 2 ^ (e' - e - target).toNat
          < 2 ^ (k - e').toNat * 2 ^ (e' - e - target).toNat :=
            Nat.mul_lt_mul_of_pos_right hfirst (Nat.two_pow_pos _)
        _ = 2 ^ ((k - e').toNat + (e' - e - target).toNat) := (Nat.pow_add _ _ _).symm
        _ ≤ 2 ^ (n.log2 + (k - j + 1 - target).toNat) :=
            Nat.pow_le_pow_right (by decide) (by omega)
        _ = 2 ^ n.log2 * 2 ^ (k - j + 1 - target).toNat := Nat.pow_add _ _ _
        _ ≤ n * 2 ^ (k - j + 1 - target).toNat := Nat.mul_le_mul_right _ hsecond

/-- To add a half keeps every double within the doubles. -/
theorem isRounded_add_half {b : BitVec 64} (hb : IsBelow 1024 (unpack Format.binary64 b)) :
    IsRounded 1024 (add Format.binary64 (unpack Format.binary64 b)
      (.finite .positive (2 ^ 52) (-53) (Nat.two_pow_pos 52))) := by
  have hhalf : IsBelow 953 (.finite .positive (2 ^ 52) (-53) (Nat.two_pow_pos 52)) := by decide
  cases hu : unpack Format.binary64 b with
  | infinity sign => exact (hu ▸ hb).elim
  | notANumber => exact (hu ▸ hb).elim
  | zero sign => exact (hhalf.isRounded (by decide)).mono (by decide)
  | finite sign n e hn =>
    obtain ⟨hmantissa, hexponent⟩ := bounds_of_unpack hu
    by_cases hlow : e ≤ 900
    · have hbelow : IsBelow 953 (.finite sign n e hn) := hu ▸ isBelow_of_unpack hu (by omega)
      exact (isRounded_add hbelow hhalf (by decide) (by decide)).mono (by decide)
    · have hmin : min e (-53) = -53 := by omega
      have hsum := Int.natAbs_add_le (sign.apply (decreaseExponent n e (min e (-53))).1)
        (Sign.positive.apply (decreaseExponent (2 ^ 52) (-53) (min e (-53))).1)
      rw [natAbs_apply, natAbs_apply] at hsum
      refine isRounded_normalize_of_lt (by omega) (lt_of_le_of_lt hsum ?_)
      have hexp : (e - -53).toNat ≤ 1023 + 1 := by omega
      have hsmall : 52 < 1023 := by decide
      have hsame : (-53 - -53 : Int).toNat = 0 := rfl
      have htop : (970 - -53 : Int).toNat = 1023 := rfl
      rw [hmin]
      simp only [decreaseExponent, Nat.shiftLeft_eq, hsame, htop]
      generalize 1023 = top at hexp hsmall ⊢
      have hmoved : n * 2 ^ (e - -53).toNat ≤ (2 ^ 53 - 1) * 2 ^ (top + 1) :=
        Nat.mul_le_mul (Nat.le_sub_one_of_lt hmantissa) (Nat.pow_le_pow_right (by decide) hexp)
      have hlarge : 2 ^ 52 < 2 ^ top := Nat.pow_lt_pow_right (by decide) hsmall
      rw [Nat.pow_succ] at hmoved
      omega

end Operations

end Swatch.Binary64
