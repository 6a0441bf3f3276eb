import Mathlib.Data.Nat.Digits.Lemmas
import Swatch.Color.Reader
import Swatch.Proofs.Number.Finite
import Swatch.Proofs.Number.Rational
import Swatch.Proofs.Text.Scanning

/-!
Numerals: digits, perhaps with a point among them. They are read for the number that they denote,
whatever follows them.
-/

namespace Swatch

open Text

/-! ### Digits -/

theorem digitsValue_concat (cs : List Char) (c : Char) :
    digitsValue (cs ++ [c]) = 10 * digitsValue cs + (digitValue? c).getD 0 := by
  rw [digitsValue, List.foldl_append]
  rfl

theorem digitValue?_digitChar : ∀ n : Nat, n < 10 → digitValue? (Nat.digitChar n) = some n := by
  decide

theorem digitsValue_toDigits (n : Nat) : digitsValue (Nat.toDigits 10 n) = n := by
  induction n using Nat.strongRecOn with
  | ind n ih =>
    rcases Nat.lt_or_ge n 10 with hsmall | hlarge
    · rw [Nat.toDigits_of_lt_base hsmall]
      change 10 * 0 + (digitValue? (Nat.digitChar n)).getD 0 = n
      rw [digitValue?_digitChar n hsmall]
      simp
    · have hdigit : n % 10 < 10 := Nat.mod_lt n (by decide)
      rw [Nat.toDigits_of_base_le (by decide) hlarge, digitsValue_concat, ih (n / 10) (by omega),
        digitValue?_digitChar _ hdigit, Option.getD_some]
      omega

theorem isDigit_of_mem_toDigits {n : Nat} {c : Char} (hc : c ∈ Nat.toDigits 10 n) : c.isDigit = true :=
  Nat.isDigit_of_mem_toDigits (by decide) (by decide) hc

theorem toNat_of_isDigit {c : Char} (hc : c.isDigit = true) : 48 ≤ c.toNat ∧ c.toNat ≤ 57 := by
  obtain ⟨hlow, hhigh⟩ := Bool.and_eq_true_iff.mp hc
  exact ⟨UInt32.le_iff_toNat_le.mp (of_decide_eq_true hlow),
    UInt32.le_iff_toNat_le.mp (of_decide_eq_true hhigh)⟩

theorem toLower_of_isDigit {c : Char} (hc : c.isDigit = true) : c.toLower = c := by
  have hcapital : ¬('A'.toNat ≤ c.toNat ∧ c.toNat ≤ 'Z'.toNat) := by
    rintro ⟨hlow, -⟩
    exact absurd (le_trans hlow (toNat_of_isDigit hc).2) (by decide)
  exact dif_neg hcapital

theorem ne_of_isDigit {c d : Char} (hc : c.isDigit = true) (hd : d.isDigit = false) : c ≠ d := by
  rintro rfl
  rw [hc] at hd
  cases hd

theorem isBlank_of_isDigit {c : Char} (hc : c.isDigit = true) : isBlank c = false := by
  obtain ⟨hlow, hhigh⟩ := toNat_of_isDigit hc
  simp only [isBlank, Bool.or_eq_false_iff, Bool.and_eq_false_iff, decide_eq_false_iff_not,
    beq_eq_false_iff_ne]
  omega

theorem getLast?_ne_of_isDigit {cs : List Char} {d : Char} (hcs : ∀ c ∈ cs.getLast?, c.isDigit = true)
    (hd : d.isDigit = false) : (cs.getLast? == some d) = false := by
  rw [beq_eq_false_iff_ne]
  intro hlast
  exact ne_of_isDigit (hcs d hlast) hd rfl

theorem sign_of_isDigit {c : Char} (hc : c.isDigit = true) (rest : List Char) :
    Decimal.sign (c :: rest) = (false, c :: rest) := by
  unfold Decimal.sign
  split
  · rename_i heq
    cases heq
    cases hc
  · rename_i heq
    cases heq
    cases hc
  · rfl

/-! ### Numerals -/

/-- Digits before a point and digits after it; the point is left out with the latter. -/
def numeral (whole fraction : List Char) : List Char :=
  match fraction with
  | [] => whole
  | c :: rest => whole ++ '.' :: c :: rest

/-- A text that is a number: some digits, and perhaps a point and more digits, not too many to be read
as a number. -/
def Denotes (cs : List Char) (q : Rat) : Prop :=
  ∃ whole fraction, cs = numeral whole fraction ∧ whole ≠ [] ∧
    (∀ c ∈ whole ++ fraction, c.isDigit = true) ∧ digitsValue (whole ++ fraction) < 10 ^ 9 ∧
    (digitsValue (whole ++ fraction) : Rat) / 10 ^ fraction.length = q

/-- A text that goes on with no part of a number. -/
def EndsNumber (rest : List Char) : Prop :=
  ∀ c ∈ rest.head?, isDigit c = false ∧ c ≠ '.' ∧ c ≠ 'e' ∧ c ≠ 'E'

theorem endsNumber_nil : EndsNumber [] :=
  fun c hc => by cases hc

theorem endsNumber_cons {c : Char} {cs : List Char}
    (hc : isDigit c = false ∧ c ≠ '.' ∧ c ≠ 'e' ∧ c ≠ 'E') : EndsNumber (c :: cs) := by
  intro d hd
  cases hd
  exact hc

section Reading

variable {p : Char → Bool} {whole fraction rest : List Char}

theorem exponentPart_of_endsNumber {readDigits : List Char → List Char × List Char}
    (hrest : EndsNumber rest) : Decimal.exponentPart readDigits rest = (0, rest) := by
  cases rest with
  | nil => rfl
  | cons c rest =>
    obtain ⟨-, -, he, hE⟩ := hrest c rfl
    simp [Decimal.exponentPart, he, hE]

/-- What follows the digits before a point. -/
def afterWhole (fraction rest : List Char) : List Char :=
  match fraction with
  | [] => rest
  | c :: more => '.' :: (c :: more ++ rest)

theorem numeral_append (whole fraction rest : List Char) :
    numeral whole fraction ++ rest = whole ++ afterWhole fraction rest := by
  cases fraction with
  | nil => rfl
  | cons c fraction => simp [numeral, afterWhole]

theorem isDigit_head_afterWhole (hrest : EndsNumber rest) :
    ∀ c ∈ (afterWhole fraction rest).head?, isDigit c = false := by
  cases fraction with
  | nil => exact fun c hc => (hrest c hc).1
  | cons d fraction =>
    intro c hc
    cases hc
    decide

/-- Reading an unsigned number, with any reader of digits that stops where they end. -/
theorem unsigned?_numeral {readDigits : List Char → List Char × List Char} (hne : whole ≠ [])
    (hwhole : readDigits (whole ++ afterWhole fraction rest) = (whole, afterWhole fraction rest))
    (hfraction : fraction ≠ [] → readDigits (fraction ++ rest) = (fraction, rest))
    (hrest : EndsNumber rest) :
    Decimal.unsigned? readDigits false (numeral whole fraction ++ rest) =
      some (⟨false, digitsValue (whole ++ fraction), -fraction.length⟩, rest) := by
  have hsome : whole.isEmpty = false := by simpa using hne
  rw [numeral_append, Decimal.unsigned?, hwhole]
  cases fraction with
  | nil =>
    simp only [afterWhole]
    split
    · exact absurd rfl (hrest _ rfl).2.1
    · simp [hsome, exponentPart_of_endsNumber hrest]
  | cons c fraction =>
    simp only [afterWhole, hfraction (List.cons_ne_nil c fraction)]
    simp [hsome, exponentPart_of_endsNumber hrest]

theorem leading?_numeral (hne : whole ≠ []) (hdigits : ∀ c ∈ whole ++ fraction, c.isDigit = true)
    (hrest : EndsNumber rest) :
    Decimal.leading? (numeral whole fraction ++ rest) =
      some (⟨false, digitsValue (whole ++ fraction), -fraction.length⟩, rest) := by
  have hwhole : ∀ c ∈ whole, isDigit c = true :=
    fun c hc => isDigit_of_ascii (hdigits c (List.mem_append_left _ hc))
  have hfraction : ∀ c ∈ fraction, isDigit c = true :=
    fun c hc => isDigit_of_ascii (hdigits c (List.mem_append_right _ hc))
  obtain ⟨c, more, rfl⟩ := List.exists_cons_of_ne_nil hne
  have hc : c.isDigit = true := hdigits c (by simp)
  have hstart : numeral (c :: more) fraction ++ rest = c :: (more ++ afterWhole fraction rest) := by
    rw [numeral_append]
    rfl
  have htrim : trimStart (c :: (more ++ afterWhole fraction rest)) =
      c :: (more ++ afterWhole fraction rest) :=
    List.dropWhile_cons_of_neg (by simp [isBlank_of_isDigit hc])
  unfold Decimal.leading?
  rw [hstart, htrim, sign_of_isDigit hc, ← hstart]
  exact unsigned?_numeral hne (span_append hwhole (isDigit_head_afterWhole hrest))
    (fun _ => span_append hfraction fun d hd => (hrest d hd).1) hrest

theorem plain?_numeral (hne : whole ≠ []) (hdigits : ∀ c ∈ whole ++ fraction, c.isDigit = true)
    (hrest : EndsNumber rest) :
    CompactTriple.plain? (numeral whole fraction ++ rest) =
      some (⟨false, digitsValue (whole ++ fraction), -fraction.length⟩, rest) := by
  have hascii {more : List Char} (hmore : ∀ c ∈ more.head?, isDigit c = false) :
      ∀ c ∈ more.head?, c.isDigit = false := by
    intro c hc
    by_contra hdigit
    have hdigit' := isDigit_of_ascii (eq_true_of_ne_false hdigit)
    rw [hmore c hc] at hdigit'
    cases hdigit'
  rw [numeral_append, CompactTriple.plain?, run?_append hne
    (fun c hc => hdigits c (List.mem_append_left _ hc)) (hascii (isDigit_head_afterWhole hrest))]
  cases fraction with
  | nil =>
    simp only [afterWhole, Option.bind_eq_bind, Option.bind_some, List.append_nil]
    split
    · exact absurd rfl (hrest _ rfl).2.1
    · rfl
  | cons d fraction =>
    have hrun := run?_append (List.cons_ne_nil d fraction)
      (fun c hc => hdigits c (List.mem_append_right _ hc)) (hascii fun c hc => (hrest c hc).1)
    simp only [afterWhole, Option.bind_eq_bind, Option.bind_some, hrun]

end Reading

/-! ### Numbers -/

theorem toRat_numeral (n places : Nat) : (Decimal.mk false n (-places)).toRat = n / 10 ^ places := by
  rw [Scalar.toRat_of_neg places rfl]
  simp

namespace Denotes

variable {cs rest : List Char} {q : Rat}

theorem leadingNumber? (h : Denotes cs q) (hrest : EndsNumber rest) :
    (Color.leadingNumber? (cs ++ rest) : Option Rat) = some q := by
  obtain ⟨whole, fraction, rfl, hne, hdigits, hlt, hq⟩ := h
  have hfinite :
      (Decimal.mk false (digitsValue (whole ++ fraction)) (-fraction.length)).isFinite = true :=
    Binary64.isFinite_of_lt (by decide : 0 < 9) hlt (by dsimp only; omega)
  rw [Color.leadingNumber?, leading?_numeral hne hdigits hrest]
  simp only [hfinite, if_true]
  exact congrArg some ((toRat_numeral _ _).trans hq)

theorem plain? (h : Denotes cs q) (hrest : EndsNumber rest) :
    ∃ d, CompactTriple.plain? (cs ++ rest) = some (d, rest) ∧ d.toRat = q := by
  obtain ⟨whole, fraction, rfl, hne, hdigits, -, hq⟩ := h
  exact ⟨_, plain?_numeral hne hdigits hrest, (toRat_numeral _ _).trans hq⟩

theorem isDigit_head (h : Denotes cs q) : ∀ c ∈ cs.head?, c.isDigit = true := by
  obtain ⟨whole, fraction, rfl, hne, hdigits, -⟩ := h
  obtain ⟨d, more, rfl⟩ := List.exists_cons_of_ne_nil hne
  have hhead : (numeral (d :: more) fraction).head? = some d := by cases fraction <;> rfl
  intro c hc
  rw [hhead] at hc
  cases hc
  exact hdigits d (by simp)

theorem isDigit_last (h : Denotes cs q) : ∀ c ∈ cs.getLast?, c.isDigit = true := by
  obtain ⟨whole, fraction, rfl, -, hdigits, -⟩ := h
  intro c hc
  refine hdigits c ?_
  cases fraction with
  | nil => exact List.mem_append_left _ (List.mem_of_getLast? hc)
  | cons d fraction =>
    rw [numeral, List.getLast?_append_cons, List.getLast?_cons_cons] at hc
    exact List.mem_append_right _ (List.mem_of_getLast? hc)

theorem trim_eq (h : Denotes cs q) : trim cs = cs :=
  trim_eq_self (fun c hc => isBlank_of_isDigit (h.isDigit_head c hc))
    fun c hc => isBlank_of_isDigit (h.isDigit_last c hc)

theorem opacity_eq (h : Denotes cs q) (hq : 0 ≤ q ∧ q ≤ 1) : (Color.opacity (some cs) : Rat) = q := by
  have hnumber : (Color.leadingNumber? cs : Option Rat) = some q := by
    have hread := @leadingNumber? cs [] q h endsNumber_nil
    rwa [List.append_nil] at hread
  have hpercent : (cs.getLast? == some '%') = false := getLast?_ne_of_isDigit h.isDigit_last rfl
  simp only [Color.opacity, h.trim_eq, hnumber, hpercent, Scalar.clamp_rat, max_eq_left hq.1,
    min_eq_left hq.2]
  rfl

end Denotes

/-! ### Whole numbers -/

theorem groupedTail_digits {cs : List Char} (hcs : ∀ c ∈ cs, c.isDigit = true) :
    Decimal.groupedTail cs = (cs, []) := by
  induction cs with
  | nil => rfl
  | cons c cs ih =>
    have hc : isDigit c = true := isDigit_of_ascii (hcs c List.mem_cons_self)
    have htail := ih fun d hd => hcs d (List.mem_cons_of_mem c hd)
    cases cs with
    | nil => simp [Decimal.groupedTail, hc]
    | cons d cs => simp [Decimal.groupedTail, hc, htail]

theorem denotes_digits {cs : List Char} (hne : cs ≠ []) (hcs : ∀ c ∈ cs, c.isDigit = true)
    (hlt : digitsValue cs < 10 ^ 9) : Denotes cs (digitsValue cs) := by
  refine ⟨cs, [], rfl, hne, ?_⟩
  rw [List.append_nil]
  exact ⟨hcs, hlt, by simp⟩

theorem denotes_toDigits {n : Nat} (hn : n < 10 ^ 9) : Denotes (Nat.toDigits 10 n) n := by
  have hdenotes := @denotes_digits (Nat.toDigits 10 n) Nat.toDigits_ne_nil
    (fun c hc => isDigit_of_mem_toDigits hc) (by rwa [digitsValue_toDigits])
  rwa [digitsValue_toDigits] at hdenotes

theorem literal?_digits {cs : List Char} (hne : cs ≠ []) (hcs : ∀ c ∈ cs, c.isDigit = true) :
    Decimal.literal? cs = some ⟨false, digitsValue cs, 0⟩ := by
  obtain ⟨c, more, rfl⟩ := List.exists_cons_of_ne_nil hne
  have hc := hcs c List.mem_cons_self
  have hgrouped : Decimal.grouped (c :: more) = (c :: more, []) := by
    have htail := groupedTail_digits fun d hd => hcs d (List.mem_cons_of_mem c hd)
    simp [Decimal.grouped, isDigit_of_ascii hc, htail]
  have hunsigned := @unsigned?_numeral (c :: more) [] [] Decimal.grouped hne
    (by simpa [afterWhole] using hgrouped) (fun hnil => absurd rfl hnil) endsNumber_nil
  have htrim : trim (c :: more) = c :: more :=
    trim_eq_self (fun d hd => isBlank_of_isDigit (hcs d (List.mem_of_mem_head? hd)))
      fun d hd => isBlank_of_isDigit (hcs d (List.mem_of_getLast? hd))
  rw [numeral, List.append_nil] at hunsigned
  rw [Decimal.literal?, htrim, sign_of_isDigit hc]
  simp only [hunsigned]
  rfl

/-- A whole number is a channel in an arithmetic that rounds it to itself. -/
theorem channel?_toDigits_of_nearest {α : Type} [Scalar α] {n : Nat} (hn : n ≤ 255)
    (hround : Scalar.nearest (Scalar.ofDecimal ⟨false, n, 0⟩ : α) = .ok n) :
    Color.channel? (α := α) (Nat.toDigits 10 n) = .ok (some n) := by
  have hdigits : ∀ c ∈ Nat.toDigits 10 n, c.isDigit = true := fun c hc => isDigit_of_mem_toDigits hc
  have hne : Nat.toDigits 10 n ≠ [] := Nat.toDigits_ne_nil
  have hfinite : (Decimal.mk false n 0).isFinite = true :=
    Binary64.isFinite_of_lt (by decide : 0 < 9) (by omega : n < 10 ^ 9) (by dsimp only; omega)
  have hread : Decimal.literal? (Nat.toDigits 10 n) = some ⟨false, n, 0⟩ := by
    rw [literal?_digits hne hdigits, digitsValue_toDigits]
  have hlast := @getLast?_ne_of_isDigit _ '%' (fun c hc => hdigits c (List.mem_of_getLast? hc)) rfl
  unfold Color.channel?
  simp only [hlast, hread, hfinite, hround]
  change Except.ok (some (min (max (n : Int) 0) 255)) = Except.ok (some (n : Int))
  rw [max_eq_left (by omega), min_eq_left (by omega)]

theorem channel?_toDigits {n : Nat} (hn : n ≤ 255) :
    Color.channel? (α := Rat) (Nat.toDigits 10 n) = .ok (some n) := by
  refine channel?_toDigits_of_nearest hn ?_
  have hvalue : (Decimal.mk false n 0).toRat = (n : Int) := by
    have hrat := toRat_numeral n 0
    rwa [pow_zero, div_one] at hrat
  change Scalar.nearest (Decimal.mk false n 0).toRat = .ok (n : Int)
  rw [hvalue, Scalar.nearest_rat, Scalar.rounded_intCast]

end Swatch
