import Mathlib.Algebra.Order.Field.Power
import Mathlib.Data.List.DropRight
import Swatch.Color.Writer
import Swatch.Proofs.Number.Numeral

/-!
Numbers as they are written: with a fixed number of places, or with six significant digits. What is
written is a numeral, and it denotes the number if that has few enough places.
-/

namespace Swatch

open Text

namespace Extended

/-! ### Rounding -/

theorem abs_roundHalfEven_sub_le (num : Nat) {den : Nat} (hden : 0 < den) :
    |(roundHalfEven num den : Rat) - num / den| ≤ 1 / 2 := by
  have hpos : (0 : Rat) < den := Nat.cast_pos.mpr hden
  have hsplit : (num : Rat) / den = (num / den : Nat) + (num % den : Nat) / den := by
    rw [div_eq_iff hpos.ne', add_mul, div_mul_cancel₀ _ hpos.ne']
    exact_mod_cast (Nat.div_add_mod' num den).symm
  have hnonneg : (0 : Rat) ≤ (num % den : Nat) / den := by positivity
  rw [hsplit, abs_le]
  unfold roundHalfEven
  dsimp only
  split_ifs with hbelow hbeyond
  · have hhalf : ((num % den : Nat) : Rat) / den ≤ 1 / 2 := by
      rw [div_le_iff₀ hpos]
      have hcast : (2 : Rat) * (num % den : Nat) < den := by exact_mod_cast hbelow
      linarith
    constructor <;> linarith
  · have hhalf : 1 / 2 ≤ ((num % den : Nat) : Rat) / den := by
      rw [le_div_iff₀ hpos]
      have hcast : (den : Rat) < 2 * (num % den : Nat) := by exact_mod_cast hbeyond
      linarith
    have hone : ((num % den : Nat) : Rat) / den ≤ 1 := by
      rw [div_le_one hpos]
      exact_mod_cast (Nat.mod_lt num hden).le
    push_cast
    constructor <;> linarith
  · have hhalf : ((num % den : Nat) : Rat) / den = 1 / 2 := by
      rw [div_eq_iff hpos.ne']
      have hcast : (2 : Rat) * (num % den : Nat) = den := by
        exact_mod_cast (by omega : 2 * (num % den) = den)
      linarith
    rw [hhalf]
    rcases Nat.mod_two_eq_zero_or_one (num / den) with heven | hodd
    · rw [heven]
      push_cast
      constructor <;> linarith
    · rw [hodd]
      push_cast
      constructor <;> linarith

theorem natAbs_num_div_den {q : Rat} (hq : 0 ≤ q) : (q.num.natAbs : Rat) / q.den = q := by
  have hnum : ((q.num.natAbs : Nat) : Rat) = q.num := by
    rw [Nat.cast_natAbs, abs_of_nonneg (Rat.num_nonneg.mpr hq)]
  rw [hnum, Rat.num_div_den]

theorem zpow_toNat {n : Int} (hn : 0 ≤ n) : (10 : Rat) ^ n.toNat = 10 ^ n := by
  rw [← zpow_natCast, Int.toNat_of_nonneg hn]

theorem abs_scaled_sub_le {q : Rat} (hq : 0 ≤ q) (power : Int) :
    |(scaled q power : Rat) - q * 10 ^ power| ≤ 1 / 2 := by
  unfold scaled
  split_ifs with hpower
  · have hround := abs_roundHalfEven_sub_le (q.num.natAbs * Nat.pow 10 power.toNat) q.den_pos
    rw [Nat.pow_eq] at hround ⊢
    rwa [Nat.cast_mul, mul_div_right_comm, natAbs_num_div_den hq, Nat.cast_pow, Nat.cast_ofNat,
      zpow_toNat hpower] at hround
  · have hneg : 0 ≤ -power := by omega
    have hround := @abs_roundHalfEven_sub_le q.num.natAbs (q.den * Nat.pow 10 (-power).toNat)
      (Nat.mul_pos q.den_pos (Nat.pow_pos (by decide)))
    rw [Nat.pow_eq] at hround ⊢
    rwa [Nat.cast_mul, ← div_div, natAbs_num_div_den hq, Nat.cast_pow, Nat.cast_ofNat,
      zpow_toNat hneg, zpow_neg, div_inv_eq_mul] at hround

/-- Nothing is lost where the scaled number is whole. -/
theorem scaled_eq {q : Rat} (hq : 0 ≤ q) {power : Int} {n : Nat} (hn : q * 10 ^ power = n) :
    scaled q power = n := by
  have hround := abs_scaled_sub_le hq power
  rw [hn, abs_le] at hround
  have hle : scaled q power < n + 1 := by
    have hcast : (scaled q power : Rat) < n + 1 := by linarith [hround.2]
    exact_mod_cast hcast
  have hge : n < scaled q power + 1 := by
    have hcast : (n : Rat) < scaled q power + 1 := by linarith [hround.1]
    exact_mod_cast hcast
  omega

/-! ### The exponent of a number -/

theorem digitCount_spec {n : Nat} (hn : 0 < n) :
    ∃ m : Nat, Decimal.digitCount n = m + 1 ∧ (10 : Rat) ^ m ≤ n ∧ (n : Rat) < 10 ^ (m + 1) := by
  obtain ⟨m, hm⟩ : ∃ m : Nat, Decimal.digitCount n = m + 1 :=
    Nat.exists_eq_add_one.mpr Nat.length_toDigits_pos
  have hlt := Binary64.lt_ten_pow_digitCount n
  rw [hm] at hlt
  refine ⟨m, hm, ?_, by exact_mod_cast hlt⟩
  have hle : 10 ^ m ≤ n := by
    by_contra hsmall
    rcases Nat.eq_zero_or_pos m with rfl | hpos
    · exact hsmall hn
    · have hcount := (Nat.length_toDigits_le_iff (by decide) hpos).mpr (not_le.mp hsmall)
      change Decimal.digitCount n ≤ m at hcount
      omega
  exact_mod_cast hle

/-- The comparison that settles the exponent. -/
theorem ten_zpow_le_iff {q : Rat} (hq : 0 ≤ q) (power : Int) :
    (if 0 ≤ power then decide (q.den * Nat.pow 10 power.toNat ≤ q.num.natAbs)
      else decide (q.den ≤ q.num.natAbs * Nat.pow 10 (-power).toNat)) = true ↔ 10 ^ power ≤ q := by
  have hden : (0 : Rat) < q.den := Nat.cast_pos.mpr q.den_pos
  have hiff : 10 ^ power ≤ q ↔ 10 ^ power * (q.den : Rat) ≤ q.num.natAbs := by
    rw [← le_div_iff₀ hden, natAbs_num_div_den hq]
  rw [hiff]
  split_ifs with hpower
  · rw [decide_eq_true_iff, ← @Nat.cast_le Rat, Nat.pow_eq]
    push_cast
    rw [zpow_toNat hpower, mul_comm]
  · have hneg : 0 ≤ -power := by omega
    have hpos : (0 : Rat) < 10 ^ power := zpow_pos (by decide) power
    rw [decide_eq_true_iff, ← @Nat.cast_le Rat, Nat.pow_eq]
    push_cast
    rw [zpow_toNat hneg, zpow_neg, ← div_eq_mul_inv, le_div_iff₀ hpos, mul_comm]

theorem decimalExponent_spec {q : Rat} (hq : 0 < q) :
    10 ^ decimalExponent q ≤ q ∧ q < 10 ^ (decimalExponent q + 1) := by
  have hden : (0 : Rat) < q.den := Nat.cast_pos.mpr q.den_pos
  have hten : (10 : Rat) ≠ 0 := by decide
  obtain ⟨a, ha, halow, hahigh⟩ := digitCount_spec (Int.natAbs_pos.mpr (Rat.num_pos.mpr hq).ne')
  obtain ⟨b, hb, hblow, hbhigh⟩ := digitCount_spec q.den_pos
  have hguess : (Decimal.digitCount q.num.natAbs : Int) - Decimal.digitCount q.den = (a : Int) - b := by
    omega
  have hbelow : (10 : Rat) ^ ((a : Int) - b - 1) ≤ q := by
    rw [sub_sub, zpow_sub₀ hten, ← natAbs_num_div_den hq.le]
    exact div_le_div₀ (Nat.cast_nonneg _) (by exact_mod_cast halow) hden (by exact_mod_cast hbhigh.le)
  have habove : q < (10 : Rat) ^ ((a : Int) - b + 1) := by
    rw [sub_add_eq_add_sub, zpow_sub₀ hten, ← natAbs_num_div_den hq.le]
    exact div_lt_div₀ (by exact_mod_cast hahigh) (by exact_mod_cast hblow) (by positivity)
      (by positivity)
  have hreached := ten_zpow_le_iff hq.le ((a : Int) - b)
  unfold decimalExponent
  dsimp only
  rw [hguess]
  rcases le_or_gt (10 ^ ((a : Int) - b)) q with hle | hgt
  · rw [if_pos (hreached.mpr hle)]
    exact ⟨hle, habove⟩
  · rw [if_neg (mt hreached.mp (not_le.mpr hgt)), sub_add_cancel]
    exact ⟨hbelow, hgt⟩

/-! ### Digits with a point -/

theorem digitsValue_replicate_append (zeros : Nat) (cs : List Char) :
    digitsValue (List.replicate zeros '0' ++ cs) = digitsValue cs := by
  induction zeros with
  | zero => rfl
  | succ zeros ih => exact ih

theorem digitsValue_digitsPadded (width n : Nat) : digitsValue (digitsPadded width n) = n :=
  (digitsValue_replicate_append _ _).trans (digitsValue_toDigits n)

theorem isDigit_of_mem_digitsPadded {width n : Nat} {c : Char} (hc : c ∈ digitsPadded width n) :
    c.isDigit = true := by
  rcases List.mem_append.mp hc with hzero | hdigit
  · rw [List.eq_of_mem_replicate hzero]
    rfl
  · exact isDigit_of_mem_toDigits hdigit

theorem le_length_digitsPadded (width n : Nat) : width ≤ (digitsPadded width n).length := by
  rw [digitsPadded, List.length_append, List.length_replicate]
  omega

theorem numeral_of_ne_nil {whole fraction : List Char} (hne : fraction ≠ []) :
    numeral whole fraction = whole ++ '.' :: fraction := by
  cases fraction with
  | nil => exact absurd rfl hne
  | cons c fraction => rfl

theorem pointed_eq_numeral (places units : Nat) :
    let digits := digitsPadded (places + 1) units
    pointed places units =
      numeral (digits.take (digits.length - places)) (digits.drop (digits.length - places)) := by
  intro digits
  have hlength : places + 1 ≤ digits.length := le_length_digitsPadded _ _
  rcases Nat.eq_zero_or_pos places with rfl | hplaces
  · rw [Nat.sub_zero, List.take_length, List.drop_length]
    rfl
  · have hdrop : digits.drop (digits.length - places) ≠ [] := by
      rw [ne_eq, List.drop_eq_nil_iff]
      omega
    rw [pointed, if_neg hplaces.ne', numeral_of_ne_nil hdrop]

theorem denotes_pointed (places : Nat) {units : Nat} (hunits : units < 10 ^ 9) :
    Denotes (pointed places units) (units / 10 ^ places) := by
  have hlength := le_length_digitsPadded (places + 1) units
  have hnumeral := pointed_eq_numeral places units
  dsimp only at hnumeral
  generalize hdigits : digitsPadded (places + 1) units = digits at hlength hnumeral
  have hfraction : (digits.drop (digits.length - places)).length = places := by
    rw [List.length_drop]
    omega
  have hvalue : digitsValue digits = units := by
    rw [← hdigits, digitsValue_digitsPadded]
  refine ⟨_, _, hnumeral, ?_, ?_, ?_, ?_⟩
  · rw [ne_eq, List.take_eq_nil_iff]
    rintro (hnone | rfl)
    · omega
    · exact absurd hlength (Nat.not_succ_le_zero _)
  · intro c hc
    rw [List.take_append_drop, ← hdigits] at hc
    exact isDigit_of_mem_digitsPadded hc
  · rwa [List.take_append_drop, hvalue]
  · rw [List.take_append_drop, hvalue, hfraction]

theorem digitsValue_append_replicate (cs : List Char) (zeros : Nat) :
    digitsValue (cs ++ List.replicate zeros '0') = digitsValue cs * 10 ^ zeros := by
  induction zeros with
  | zero => simp
  | succ zeros ih =>
    rw [List.replicate_succ', ← List.append_assoc, digitsValue_concat, ih, Nat.pow_succ]
    change 10 * (digitsValue cs * 10 ^ zeros) + 0 = _
    ring

/-! ### Zeros at the end of a fraction -/

/-- A fraction without the zeros at its end, and how many these were. -/
theorem rdropWhile_append_zeros (fraction : List Char) :
    ∃ zeros, fraction.rdropWhile (· == '0') ++ List.replicate zeros '0' = fraction := by
  have hzeros : fraction.rtakeWhile (· == '0') =
      List.replicate (fraction.rtakeWhile (· == '0')).length '0' :=
    List.eq_replicate_of_mem fun c hc => by simpa using List.mem_rtakeWhile_imp hc
  refine ⟨(fraction.rtakeWhile (· == '0')).length, ?_⟩
  rw [← hzeros]
  exact List.rdropWhile_append_rtakeWhile

theorem dropFractionZeros_numeral {whole fraction : List Char}
    (hdigits : ∀ c ∈ whole ++ fraction, c.isDigit = true) :
    dropFractionZeros (numeral whole fraction) = numeral whole (fraction.rdropWhile (· == '0')) := by
  by_cases hnone : fraction = []
  · subst hnone
    have hpoint : whole.contains '.' = false := by
      rw [List.contains_eq_mem, decide_eq_false_iff_not]
      intro hmem
      exact ne_of_isDigit (hdigits '.' (List.mem_append_left _ hmem)) rfl rfl
    simp only [numeral, dropFractionZeros, hpoint]
    rfl
  have hpoint : (whole ++ '.' :: fraction).contains '.' = true := by simp
  rw [numeral_of_ne_nil hnone, dropFractionZeros, if_pos hpoint, List.reverse_append,
    List.reverse_cons, List.append_assoc, List.dropWhile_append, List.rdropWhile]
  have hkept : ∀ c ∈ fraction.reverse.dropWhile (· == '0'), c.isDigit = true := by
    intro c hc
    refine hdigits c (List.mem_append_right _ (List.mem_reverse.mp ?_))
    exact (List.dropWhile_suffix _).subset hc
  cases hdrop : fraction.reverse.dropWhile (· == '0') with
  | nil => simp [numeral]
  | cons c more =>
    rw [hdrop] at hkept
    have hc : c ≠ '.' := ne_of_isDigit (hkept c List.mem_cons_self) rfl
    have hreverse : (c :: more).reverse ≠ [] := by simp
    rw [numeral_of_ne_nil hreverse]
    simp [hc]

end Extended

theorem Denotes.dropFractionZeros {cs : List Char} {q : Rat} (h : Denotes cs q) :
    Denotes (Extended.dropFractionZeros cs) q := by
  obtain ⟨whole, fraction, rfl, hne, hdigits, hlt, hq⟩ := h
  obtain ⟨zeros, hzeros⟩ := Extended.rdropWhile_append_zeros fraction
  rw [Extended.dropFractionZeros_numeral hdigits]
  generalize fraction.rdropWhile (· == '0') = kept at hzeros ⊢
  subst hzeros
  rw [← List.append_assoc, Extended.digitsValue_append_replicate] at hlt hq
  refine ⟨whole, kept, rfl, hne, fun c hc => hdigits c ?_, ?_, ?_⟩
  · rw [← List.append_assoc]
    exact List.mem_append_left _ hc
  · exact lt_of_le_of_lt (Nat.le_mul_of_pos_right _ (Nat.pow_pos (by decide))) hlt
  · rw [← hq, List.length_append, List.length_replicate, pow_add]
    push_cast
    rw [mul_div_mul_right _ _ (by positivity)]

/-! ### The texts of hundredths -/

namespace Extended

theorem decimalExponent_mem {q : Rat} (hlow : 1 / 100 ≤ q) (hhigh : q < 1000) :
    -2 ≤ decimalExponent q ∧ decimalExponent q ≤ 2 := by
  obtain ⟨hle, hlt⟩ := decimalExponent_spec (lt_of_lt_of_le (by norm_num) hlow)
  have hten : (1 : Rat) < 10 := by decide
  have hbottom : (10 : Rat) ^ (-2 : Int) < 10 ^ (decimalExponent q + 1) :=
    lt_of_le_of_lt (le_trans (by norm_num) hlow) hlt
  have htop : (10 : Rat) ^ decimalExponent q < 10 ^ (3 : Int) :=
    lt_of_le_of_lt hle (lt_of_lt_of_le hhigh (by norm_num))
  have hbottom' := (zpow_lt_zpow_iff_right₀ hten).mp hbottom
  have htop' := (zpow_lt_zpow_iff_right₀ hten).mp htop
  omega

theorem ofRat_of_nonneg {q : Rat} (hq : 0 ≤ q) : ofRat q = .finite false q := by
  simp only [ofRat, not_lt.mpr hq, decide_false, if_false]

/-- Six significant digits are enough for hundredths below a thousand. -/
theorem denotes_general {k : Nat} (hpos : 0 < k) (hk : k < 10 ^ 5) :
    Denotes (general (ofRat (k / 100))).toList (k / 100) := by
  have hone : (1 : Rat) ≤ k := by exact_mod_cast hpos
  have hlt : (k : Rat) < 10 ^ 5 := by exact_mod_cast hk
  have hq : (0 : Rat) < k / 100 := by linarith
  have hmem := decimalExponent_mem (by linarith : (1 : Rat) / 100 ≤ k / 100) (by linarith)
  have hspec := (decimalExponent_spec hq).2
  have hzero : ((k : Rat) / 100 == 0) = false := beq_eq_false_iff_ne.mpr hq.ne'
  rw [ofRat_of_nonneg hq.le, general, render, signed, String.toList_ofList]
  generalize decimalExponent ((k : Rat) / 100) = e at hmem hspec ⊢
  obtain ⟨places, hplaces⟩ : ∃ places : Nat, 5 - e = (places + 2 : Nat) :=
    ⟨(3 - e).toNat, by omega⟩
  have hscaled : (k : Rat) / 100 * 10 ^ (5 - e) = (k * 10 ^ places : Nat) := by
    rw [hplaces, zpow_natCast]
    push_cast
    ring
  have hunits : k * 10 ^ places < 10 ^ 6 := by
    have hten : (0 : Rat) < 10 ^ (5 - e) := zpow_pos (by decide) _
    have hproduct := mul_lt_mul_of_pos_right hspec hten
    rw [hscaled, ← zpow_add₀ (by decide), (by omega : e + 1 + (5 - e) = (6 : Nat)), zpow_natCast]
      at hproduct
    exact_mod_cast hproduct
  have hrange : (-4 ≤ e && e < 6) = true := by
    simp only [Bool.and_eq_true, decide_eq_true_eq]
    omega
  have hdenotes := (@denotes_pointed (places + 2) _ (lt_trans hunits (by decide))).dropFractionZeros
  have hvalue : ((k * 10 ^ places : Nat) : Rat) / 10 ^ (places + 2) = k / 100 := by
    push_cast
    rw [pow_add, mul_comm ((10 : Rat) ^ places), mul_div_mul_right _ _ (by positivity)]
    norm_num
  rw [hvalue] at hdenotes
  have hexact := scaled_eq hq.le hscaled
  have htoNat : (5 - e).toNat = places + 2 := by omega
  simp only [hzero, hexact, Bool.false_eq_true, if_false]
  rw [if_pos (show k * 10 ^ places < 1000000 from hunits)]
  simp only [hrange, htoNat, if_true]
  simpa using hdenotes

end Extended

theorem toList_toString (n : Nat) : (toString (n : Int)).toList = Nat.toDigits 10 n :=
  String.toList_ofList

/-- A number of hundredths below a thousand is written exactly. -/
theorem Scalar.exists_text {k : Nat} (hk : k < 10 ^ 5) :
    ∃ s, Scalar.text ((k : Rat) / 100) = .ok s ∧ Denotes s.toList (k / 100) := by
  have hq : (0 : Rat) ≤ k / 100 := by positivity
  obtain ⟨n, hn⟩ := Int.eq_ofNat_of_zero_le (Int.floor_nonneg.mpr hq)
  rw [Scalar.text, Scalar.truncate_rat, if_neg (not_lt.mpr hq), hn]
  by_cases hwhole : (k : Rat) / 100 = (n : Int)
  · have hn9 : n < 10 ^ 9 := by
      have hcast : (n : Rat) < 10 ^ 9 := by
        have hlt : (k : Rat) < 10 ^ 5 := by exact_mod_cast hk
        have hnat : (n : Rat) = k / 100 := hwhole.symm
        linarith
      exact_mod_cast hcast
    have hequal : ((k : Rat) / 100 == Scalar.ofInt (n : Int)) = true := beq_iff_eq.mpr hwhole
    refine ⟨toString (n : Int), ?_, ?_⟩
    · change Except.ok _ = _
      rw [hequal]
      rfl
    · rw [hwhole, toList_toString]
      exact denotes_toDigits hn9
  · have hdiffer : ((k : Rat) / 100 == Scalar.ofInt (n : Int)) = false := beq_eq_false_iff_ne.mpr hwhole
    refine ⟨(Extended.ofRat ((k : Rat) / 100)).general, ?_, Extended.denotes_general ?_ hk⟩
    · change Except.ok _ = _
      rw [hdiffer]
      rfl
    · rw [Nat.pos_iff_ne_zero]
      rintro rfl
      rw [Nat.cast_zero, zero_div, Int.floor_zero] at hn
      rw [← hn] at hwhole
      simp at hwhole

/-- An opacity is written to the nearest hundredth. -/
theorem exists_pointed {q : Rat} (hq : 0 ≤ q ∧ q ≤ 1) :
    ∃ u ≤ 100, (Extended.ofRat q).fixed 2 = String.ofList (Extended.pointed 2 u) ∧
      |(u : Rat) / 100 - q| ≤ 1 / 200 := by
  have hround := abs_le.mp (Extended.abs_scaled_sub_le hq.1 2)
  rw [zpow_ofNat] at hround
  have hle : Extended.scaled q 2 ≤ 100 := by
    have hcast : (Extended.scaled q 2 : Rat) < 101 := by linarith [hround.2]
    exact Nat.le_of_lt_succ (by exact_mod_cast hcast)
  refine ⟨Extended.scaled q 2, hle, ?_, abs_le.mpr ⟨?_, ?_⟩⟩
  · rw [Extended.fixed, Extended.ofRat_of_nonneg hq.1]
    rfl
  · linarith
  · linarith

end Swatch
