import Swatch.Proofs.Number.Notation
import Swatch.Proofs.Text.Casing

/-!
Numbers in small and in capital letters. A number has no letters but the mark of its exponent, for which
both do. Main statements: the number that a text begins with, and the number that a text is, are those
of the text in small letters.
-/

namespace Swatch.Decimal

open Text

theorem sign_cons (c : Char) (rest : List Char) :
    sign (c :: rest) = if c == '-' then (true, rest) else (false, if c == '+' then rest else c :: rest) := by
  unfold sign
  split
  · rename_i heq
    obtain ⟨rfl, rfl⟩ := List.cons.inj heq
    rfl
  · rename_i heq
    obtain ⟨rfl, rfl⟩ := List.cons.inj heq
    rfl
  · rename_i hminus hplus
    have hminus' : (c == '-') = false := beq_eq_false_iff_ne.mpr fun h => hminus rest (h ▸ rfl)
    have hplus' : (c == '+') = false := beq_eq_false_iff_ne.mpr fun h => hplus rest (h ▸ rfl)
    rw [hminus', hplus']
    rfl

theorem sign_small (cs : List Char) : sign (small cs) = ((sign cs).1, small (sign cs).2) := by
  cases cs with
  | nil => rfl
  | cons c rest =>
    rw [small, List.map_cons, sign_cons, sign_cons, beq_toLower '-' (by decide),
      beq_toLower '+' (by decide)]
    cases c == '-' <;> cases c == '+' <;> rfl

section Readers

variable {readDigits : List Char → List Char × List Char}

/-- A reader of digits that reads small letters as it reads capitals. -/
def KeepsSmall (readDigits : List Char → List Char × List Char) : Prop :=
  ∀ cs, readDigits (small cs) = (small (readDigits cs).1, small (readDigits cs).2)

theorem keepsSmall_span : KeepsSmall (·.span isDigit) :=
  span_small isDigit_toLower

theorem keepsSmall_groupedTail : KeepsSmall groupedTail := by
  intro cs
  fun_induction groupedTail cs with
  | case1 => rfl
  | case2 c hc => exact if_pos (by rwa [isDigit_toLower])
  | case3 c hc => exact if_neg (by rwa [isDigit_toLower])
  | case4 c d rest hc digits after heq ih =>
    have hsmall : isDigit c.toLower = true := by rwa [isDigit_toLower]
    rw [heq] at ih
    change groupedTail (c.toLower :: small (d :: rest)) = _
    rw [groupedTail_digit hsmall, ih]
    rfl
  | case5 c d rest hc hmark digits after heq ih =>
    obtain ⟨hmark, hd⟩ := Bool.and_eq_true_iff.mp hmark
    obtain rfl := beq_iff_eq.mp hmark
    have hsmall : isDigit d.toLower = true := by rwa [isDigit_toLower]
    rw [heq] at ih
    change groupedTail ('_' :: d.toLower :: small rest) = _
    rw [groupedTail_underscore hsmall, ih]
    rfl
  | case6 c d rest hc hmark =>
    have hsmall : ¬isDigit c.toLower = true := by rwa [isDigit_toLower]
    have hmark' : ¬(c.toLower == '_' && isDigit d.toLower) = true := by
      rwa [beq_toLower '_' (by decide), isDigit_toLower]
    change groupedTail (c.toLower :: d.toLower :: small rest) = _
    rw [groupedTail, if_neg hsmall, if_neg hmark']
    rfl

theorem keepsSmall_grouped : KeepsSmall grouped := by
  intro cs
  cases cs with
  | nil => rfl
  | cons c rest =>
    change grouped (c.toLower :: small rest) = _
    by_cases hc : isDigit c = true
    · have hsmall : isDigit c.toLower = true := by rwa [isDigit_toLower]
      rw [grouped_digit hsmall, grouped_digit hc, keepsSmall_groupedTail]
      rfl
    · rw [grouped_of_not (by simpa [isDigit_toLower] using hc), grouped_of_not (by simpa using hc)]
      rfl

variable (hdigits : KeepsSmall readDigits)

include hdigits

theorem fractionPart_small (cs : List Char) : fractionPart readDigits (small cs) =
    (small (fractionPart readDigits cs).1, small (fractionPart readDigits cs).2) := by
  cases cs with
  | nil => rfl
  | cons c rest =>
    by_cases hc : c = '.'
    · subst hc
      exact hdigits rest
    · have hpoint : ¬c.toLower = '.' := by
        rwa [← beq_iff_eq, beq_toLower '.' (by decide), beq_iff_eq]
      rw [@fractionPart_of_not _ (c :: rest) (by simpa using hc)]
      exact fractionPart_of_not (by simpa [small] using hpoint)

theorem exponentPart_small (cs : List Char) : exponentPart readDigits (small cs) =
    ((exponentPart readDigits cs).1, small (exponentPart readDigits cs).2) := by
  cases cs with
  | nil => rfl
  | cons mark rest =>
    have hmark : (mark.toLower == 'e' || mark.toLower == 'E') = (mark == 'e' || mark == 'E') :=
      apply_toLower (fun c => c == 'e' || c == 'E') (by decide) mark
    change exponentPart readDigits (mark.toLower :: small rest) = _
    unfold exponentPart
    dsimp only
    rw [hmark, sign_small]
    cases mark == 'e' || mark == 'E' with
    | false => rfl
    | true =>
      simp only [if_true, hdigits (sign rest).2]
      rcases readDigits (sign rest).2 with ⟨_ | ⟨digit, digits⟩, after⟩
      · rfl
      · simp only [← digitsValue_small (digit :: digits)]
        rfl

theorem unsigned?_small (negative : Bool) (cs : List Char) :
    unsigned? readDigits negative (small cs) =
      (unsigned? readDigits negative cs).map fun found => (found.1, small found.2) := by
  rw [unsigned?_eq, unsigned?_eq, hdigits]
  dsimp only
  rw [fractionPart_small hdigits]
  dsimp only
  have happend (cs ds : List Char) : digitsValue (small cs ++ small ds) = digitsValue (cs ++ ds) := by
    rw [small, small, ← List.map_append]
    exact digitsValue_small (cs ++ ds)
  have hempty (cs : List Char) : (small cs).isEmpty = cs.isEmpty := List.isEmpty_map
  have hlength (cs : List Char) : (small cs).length = cs.length := List.length_map Char.toLower
  simp only [exponentPart_small hdigits, happend, hempty, hlength]
  split <;> rfl

end Readers

/-- The number that a text begins with. -/
theorem leading?_small (cs : List Char) :
    leading? (small cs) = (leading? cs).map fun found => (found.1, small found.2) := by
  rw [leading?, trimStart_small, sign_small]
  exact unsigned?_small keepsSmall_span _ _

/-- The number that a text is. -/
theorem literal?_small (cs : List Char) : literal? (small cs) = literal? cs := by
  rw [literal?, trim_small, sign_small]
  dsimp only
  rw [unsigned?_small keepsSmall_grouped, literal?]
  generalize sign (trim cs) = signed
  dsimp only
  rcases unsigned? grouped signed.1 signed.2 with _ | ⟨d, _ | ⟨c, rest⟩⟩ <;> rfl

end Swatch.Decimal
