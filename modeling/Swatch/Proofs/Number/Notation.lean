import Swatch.Proofs.Number.Written
import Swatch.Proofs.Text.Trimming

/-!
How numbers are written: a sign, digits around a point and an exponent, of which all but some digits may
be missing. Main statements: the number that a text begins with is the longest one that can be taken
from it, and a text is a number exactly if it is written in this way, with or without underscores between
its digits.
-/

namespace Swatch.Decimal

open Text

/-! ### Digits -/

/-- A run of digits, as the digits that it has. -/
def IsRun (text digits : List Char) : Prop :=
  text = digits ∧ digits ≠ [] ∧ ∀ c ∈ digits, isDigit c = true

/-- A run of digits, each two with or without an underscore between them. -/
inductive IsGroupedRun : (text digits : List Char) → Prop where
  | last {c : Char} (hc : isDigit c = true) : IsGroupedRun [c] [c]
  | next {c : Char} {text digits : List Char} (hc : isDigit c = true) (hrest : IsGroupedRun text digits) :
      IsGroupedRun (c :: text) (c :: digits)
  | underscore {c : Char} {text digits : List Char} (hc : isDigit c = true)
      (hrest : IsGroupedRun text digits) : IsGroupedRun (c :: '_' :: text) (c :: digits)

theorem IsGroupedRun.forall_mem {P : Char → Prop} {text digits : List Char} (h : IsGroupedRun text digits)
    (hdigit : ∀ c, isDigit c = true → P c) (hmark : P '_') : ∀ c ∈ text, P c := by
  induction h with
  | last hc => simpa using hdigit _ hc
  | next hc _ ih => exact List.forall_mem_cons.mpr ⟨hdigit _ hc, ih⟩
  | underscore hc _ ih => exact List.forall_mem_cons.mpr ⟨hdigit _ hc, List.forall_mem_cons.mpr ⟨hmark, ih⟩⟩

/-- What cannot go on a run of digits. -/
def EndsRun (rest : List Char) : Prop :=
  ∀ c ∈ rest.head?, isDigit c = false ∧ c ≠ '_'

theorem endsRun_nil : EndsRun [] :=
  fun c hc => by cases hc

theorem endsRun_cons {c : Char} {rest : List Char} (hdigit : isDigit c = false) (hc : c ≠ '_') :
    EndsRun (c :: rest) := by
  rintro d hd
  cases hd
  exact ⟨hdigit, hc⟩

/-- What a reader of digits does where the runs are given. -/
structure ReadsRuns (run : List Char → List Char → Prop) (readDigits : List Char → List Char × List Char) :
    Prop where
  begins : ∀ {text digits}, run text digits → digits ≠ [] ∧ ∃ c rest, text = c :: rest ∧ isDigit c = true
  none : ∀ {cs}, (∀ c ∈ cs.head?, isDigit c = false) → readDigits cs = ([], cs)
  sound : ∀ {cs digits rest}, readDigits cs = (digits, rest) →
    (digits = [] ∧ rest = cs) ∨ ∃ text, cs = text ++ rest ∧ run text digits
  complete : ∀ {text digits rest}, run text digits → EndsRun rest → readDigits (text ++ rest) = (digits, rest)

theorem readsRuns_span : ReadsRuns IsRun (·.span isDigit) where
  begins := by
    rintro text digits ⟨rfl, hne, hdigits⟩
    obtain ⟨c, rest, rfl⟩ := List.exists_cons_of_ne_nil hne
    exact ⟨hne, c, rest, rfl, hdigits c List.mem_cons_self⟩
  none hcs := @span_append _ [] _ (by simp) hcs
  sound := by
    intro cs digits rest hread
    have happend := span_eq_append isDigit cs
    rw [hread] at happend
    by_cases hne : digits = []
    · subst hne
      exact .inl ⟨rfl, happend⟩
    · refine .inr ⟨digits, happend.symm, rfl, hne, ?_⟩
      rw [List.span_eq_takeWhile_dropWhile] at hread
      cases hread
      exact fun c hc => List.mem_takeWhile_imp hc
  complete := by
    rintro text digits rest ⟨rfl, -, hdigits⟩ hrest
    exact span_append hdigits fun c hc => (hrest c hc).1

theorem groupedTail_digit {c : Char} (hc : isDigit c = true) (cs : List Char) :
    groupedTail (c :: cs) = (c :: (groupedTail cs).1, (groupedTail cs).2) := by
  cases cs with
  | nil => exact if_pos hc
  | cons d rest =>
    rw [groupedTail, if_pos hc]

theorem groupedTail_underscore {d : Char} (hd : isDigit d = true) (rest : List Char) :
    groupedTail ('_' :: d :: rest) = (d :: (groupedTail rest).1, (groupedTail rest).2) := by
  have hmark : isDigit '_' = false := by decide
  rw [groupedTail, hmark, hd]
  rfl

theorem groupedTail_of_endsRun {rest : List Char} (hrest : EndsRun rest) : groupedTail rest = ([], rest) := by
  cases rest with
  | nil => rfl
  | cons c rest =>
    obtain ⟨hdigit, hc⟩ := hrest c rfl
    cases rest with
    | nil => exact if_neg (by simp [hdigit])
    | cons d rest =>
      have hmark : (c == '_') = false := beq_eq_false_iff_ne.mpr hc
      rw [groupedTail, hdigit, hmark]
      rfl

/-- What is read behind a digit goes on its run. -/
theorem isGroupedRun_groupedTail {c : Char} (hc : isDigit c = true) (cs : List Char) :
    ∃ text, cs = text ++ (groupedTail cs).2 ∧ IsGroupedRun (c :: text) (c :: (groupedTail cs).1) := by
  fun_induction groupedTail cs generalizing c with
  | case1 => exact ⟨[], rfl, .last hc⟩
  | case2 d hd => exact ⟨[d], rfl, .next hc (.last hd)⟩
  | case3 d hd => exact ⟨[], rfl, .last hc⟩
  | case4 d d' rest hd digits after heq ih =>
    obtain ⟨text, htext, hrun⟩ := ih hd
    rw [heq] at htext hrun
    exact ⟨d :: text, congrArg (d :: ·) htext, .next hc hrun⟩
  | case5 d d' rest _ hmark digits after heq ih =>
    obtain ⟨hmark, hd'⟩ := Bool.and_eq_true_iff.mp hmark
    obtain rfl := beq_iff_eq.mp hmark
    obtain ⟨text, htext, hrun⟩ := ih hd'
    rw [heq] at htext hrun
    exact ⟨'_' :: d' :: text, congrArg ('_' :: d' :: ·) htext, .underscore hc hrun⟩
  | case6 => exact ⟨[], rfl, .last hc⟩

/-- A run is read to its end. -/
theorem IsGroupedRun.groupedTail_eq {text digits rest : List Char} (h : IsGroupedRun text digits)
    (hrest : EndsRun rest) : ∃ c text' digits', text = c :: text' ∧ digits = c :: digits' ∧
      isDigit c = true ∧ groupedTail (text' ++ rest) = (digits', rest) := by
  induction h with
  | @last c hc => exact ⟨c, [], [], rfl, rfl, hc, groupedTail_of_endsRun hrest⟩
  | @next c _ _ hc _ ih =>
    obtain ⟨d, text', digits', rfl, rfl, hd, ih⟩ := ih
    refine ⟨c, d :: text', d :: digits', rfl, rfl, hc, ?_⟩
    rw [List.cons_append, groupedTail_digit hd, ih]
  | @underscore c _ _ hc _ ih =>
    obtain ⟨d, text', digits', rfl, rfl, hd, ih⟩ := ih
    refine ⟨c, '_' :: d :: text', d :: digits', rfl, rfl, hc, ?_⟩
    rw [List.cons_append, List.cons_append, groupedTail_underscore hd, ih]

theorem grouped_digit {c : Char} (hc : isDigit c = true) (cs : List Char) :
    grouped (c :: cs) = (c :: (groupedTail cs).1, (groupedTail cs).2) :=
  if_pos hc

theorem grouped_of_not {cs : List Char} (hcs : ∀ c ∈ cs.head?, isDigit c = false) :
    grouped cs = ([], cs) := by
  cases cs with
  | nil => rfl
  | cons c rest => exact if_neg (by simp [hcs c rfl])

theorem readsRuns_grouped : ReadsRuns IsGroupedRun grouped where
  begins := by
    intro text digits h
    cases h with
    | last hc => exact ⟨List.cons_ne_nil _ _, _, _, rfl, hc⟩
    | next hc => exact ⟨List.cons_ne_nil _ _, _, _, rfl, hc⟩
    | underscore hc => exact ⟨List.cons_ne_nil _ _, _, _, rfl, hc⟩
  none := grouped_of_not
  sound := by
    intro cs digits rest hread
    cases cs with
    | nil =>
      cases hread
      exact .inl ⟨rfl, rfl⟩
    | cons c cs =>
      by_cases hc : isDigit c = true
      · rw [grouped_digit hc] at hread
        cases hread
        obtain ⟨text, htext, hrun⟩ := isGroupedRun_groupedTail hc cs
        exact .inr ⟨c :: text, congrArg (c :: ·) htext, hrun⟩
      · rw [grouped_of_not (by simpa using hc)] at hread
        cases hread
        exact .inl ⟨rfl, rfl⟩
  complete := by
    intro text digits rest h hrest
    obtain ⟨c, text', digits', rfl, rfl, hc, htail⟩ := h.groupedTail_eq hrest
    rw [List.cons_append, grouped_digit hc, htail]

/-! ### Parts of a number -/

section Parts

variable {run : List Char → List Char → Prop} {readDigits : List Char → List Char × List Char}
variable {text cs rest whole fraction digits : List Char} {negative : Bool} {exponent : Int} {d : Decimal}

inductive IsSign : (text : List Char) → (negative : Bool) → Prop where
  | missing : IsSign [] false
  | plus : IsSign ['+'] false
  | minus : IsSign ['-'] true

/-- Digits before a point and behind it. One of both may be missing, and the point with the latter. -/
inductive IsMantissa (run : List Char → List Char → Prop) : (text whole fraction : List Char) → Prop where
  | whole {text whole : List Char} (hwhole : run text whole) : IsMantissa run text whole []
  | pointed {text whole : List Char} (hwhole : run text whole) : IsMantissa run (text ++ ['.']) whole []
  | full {text text' whole fraction : List Char} (hwhole : run text whole) (hfraction : run text' fraction) :
      IsMantissa run (text ++ '.' :: text') whole fraction
  | fraction {text fraction : List Char} (hfraction : run text fraction) :
      IsMantissa run ('.' :: text) [] fraction

inductive IsExponent (run : List Char → List Char → Prop) : (text : List Char) → (exponent : Int) → Prop where
  | missing : IsExponent run [] 0
  | marked {mark : Char} {sign text digits : List Char} {negative : Bool} (hmark : mark = 'e' ∨ mark = 'E')
      (hsign : IsSign sign negative) (hdigits : run text digits) :
      IsExponent run (mark :: (sign ++ text))
        (if negative then -(digitsValue digits : Int) else digitsValue digits)

/-- A number as it is written, without white space around it. -/
def Spells (run : List Char → List Char → Prop) (text : List Char) (d : Decimal) : Prop :=
  ∃ sign negative mantissa whole fraction power exponent, text = sign ++ (mantissa ++ power) ∧
    IsSign sign negative ∧ IsMantissa run mantissa whole fraction ∧ IsExponent run power exponent ∧
    d = ⟨negative, digitsValue (whole ++ fraction), exponent - fraction.length⟩

/-- The digits behind a point, if there is one. -/
def fractionPart (readDigits : List Char → List Char × List Char) (cs : List Char) : List Char × List Char :=
  match cs with
  | '.' :: rest => readDigits rest
  | _ => ([], cs)

theorem unsigned?_eq (readDigits : List Char → List Char × List Char) (negative : Bool) (cs : List Char) :
    unsigned? readDigits negative cs =
      let whole := readDigits cs
      let fraction := fractionPart readDigits whole.2
      let power := exponentPart readDigits fraction.2
      if whole.1.isEmpty && fraction.1.isEmpty then none
      else some (⟨negative, digitsValue (whole.1 ++ fraction.1), power.1 - fraction.1.length⟩, power.2) :=
  rfl

theorem exists_sign (cs : List Char) : ∃ text, cs = text ++ (sign cs).2 ∧ IsSign text (sign cs).1 := by
  unfold sign
  split
  · exact ⟨['-'], rfl, .minus⟩
  · exact ⟨['+'], rfl, .plus⟩
  · exact ⟨[], rfl, .missing⟩

theorem IsSign.sign_eq (h : IsSign text negative) (hrest : ∀ c ∈ rest.head?, c ≠ '-' ∧ c ≠ '+') :
    sign (text ++ rest) = (negative, rest) := by
  cases h with
  | missing =>
    change sign rest = _
    unfold sign
    split
    · exact absurd rfl (hrest '-' rfl).1
    · exact absurd rfl (hrest '+' rfl).2
    · rfl
  | plus => rfl
  | minus => rfl

theorem fractionPart_of_not (hcs : ∀ c ∈ cs.head?, c ≠ '.') : fractionPart readDigits cs = ([], cs) := by
  unfold fractionPart
  split
  · exact absurd rfl (hcs '.' rfl)
  · rfl

theorem unsigned?_of_reads {cs' cs'' : List Char} (hsome : whole ≠ [] ∨ fraction ≠ [])
    (hwhole : readDigits cs = (whole, cs')) (hfraction : fractionPart readDigits cs' = (fraction, cs'')) :
    unsigned? readDigits negative cs = some (⟨negative, digitsValue (whole ++ fraction),
      (exponentPart readDigits cs'').1 - fraction.length⟩, (exponentPart readDigits cs'').2) := by
  have hnone : ¬(whole.isEmpty && fraction.isEmpty) = true := by
    rwa [Bool.and_eq_true_iff, List.isEmpty_iff, List.isEmpty_iff, Classical.not_and_iff_not_or_not]
  rw [unsigned?_eq, hwhole]
  dsimp only
  rw [hfraction]
  exact if_neg hnone

theorem IsExponent.ends (h : IsExponent run text exponent) :
    EndsRun text ∧ ∀ c ∈ text.head?, c ≠ '.' := by
  cases h with
  | missing => exact ⟨endsRun_nil, by simp⟩
  | marked hmark =>
    rcases hmark with rfl | rfl <;> exact ⟨endsRun_cons (by decide) (by decide), by simp⟩

section Reading

variable (hreads : ReadsRuns run readDigits)

include hreads

theorem exists_mantissa {cs' : List Char} (hwhole : readDigits cs = (whole, cs'))
    (hfraction : fractionPart readDigits cs' = (fraction, rest)) (hsome : whole ≠ [] ∨ fraction ≠ []) :
    ∃ text, cs = text ++ rest ∧ IsMantissa run text whole fraction := by
  -- Either there is a point behind the whole digits or not, and either there are digits on a side or not.
  unfold fractionPart at hfraction
  split at hfraction
  · rename_i behind
    rcases hreads.sound hwhole with ⟨rfl, rfl⟩ | ⟨text, rfl, hrun⟩ <;>
      rcases hreads.sound hfraction with ⟨rfl, rfl⟩ | ⟨text', rfl, hrun'⟩
    · simp at hsome
    · exact ⟨'.' :: text', rfl, .fraction hrun'⟩
    · exact ⟨text ++ ['.'], by simp, .pointed hrun⟩
    · exact ⟨text ++ '.' :: text', by simp, .full hrun hrun'⟩
  · cases hfraction
    rcases hreads.sound hwhole with ⟨rfl, rfl⟩ | ⟨text, rfl, hrun⟩
    · simp at hsome
    · exact ⟨text, rfl, .whole hrun⟩

theorem exists_exponent (h : exponentPart readDigits cs = (exponent, rest)) :
    ∃ text, cs = text ++ rest ∧ IsExponent run text exponent := by
  unfold exponentPart at h
  split at h
  · rename_i mark behind
    split at h
    · rename_i hmark
      obtain ⟨text, htext, hsign⟩ := exists_sign behind
      generalize sign behind = signed at h htext hsign
      subst htext
      dsimp only at h
      split at h
      · cases h
        exact ⟨[], rfl, .missing⟩
      · rename_i digits after hne heq
        cases h
        rcases hreads.sound heq with ⟨rfl, rfl⟩ | ⟨text', hrest, hrun⟩
        · exact (hne rfl).elim
        · refine ⟨mark :: (text ++ text'), by simp [hrest], ?_⟩
          exact .marked (by simpa using hmark) hsign hrun
    · cases h
      exact ⟨[], rfl, .missing⟩
  · cases h
    exact ⟨[], rfl, .missing⟩

theorem IsMantissa.reads (h : IsMantissa run text whole fraction) (hends : EndsRun rest)
    (hpoint : ∀ c ∈ rest.head?, c ≠ '.') :
    ∃ cs', readDigits (text ++ rest) = (whole, cs') ∧ fractionPart readDigits cs' = (fraction, rest) := by
  have hmark (cs : List Char) : EndsRun ('.' :: cs) := endsRun_cons (by decide) (by decide)
  cases h with
  | whole hwhole => exact ⟨rest, hreads.complete hwhole hends, fractionPart_of_not hpoint⟩
  | @pointed text _ hwhole =>
    rw [List.append_assoc]
    exact ⟨'.' :: rest, hreads.complete hwhole (hmark rest), hreads.none fun c hc => (hends c hc).1⟩
  | @full text text' _ _ hwhole hfraction =>
    rw [List.append_assoc]
    exact ⟨'.' :: (text' ++ rest), hreads.complete hwhole (hmark _), hreads.complete hfraction hends⟩
  | @fraction text _ hfraction =>
    refine ⟨'.' :: (text ++ rest), hreads.none ?_, hreads.complete hfraction hends⟩
    rintro c hc
    cases hc
    decide

/-- A run of digits begins with no sign. -/
theorem head_of_run (h : run text digits) : ∀ c ∈ (text ++ rest).head?, c ≠ '-' ∧ c ≠ '+' := by
  obtain ⟨-, c, tail, rfl, hc⟩ := hreads.begins h
  rintro d hd
  cases hd
  constructor <;> rintro rfl <;> cases hc

theorem IsExponent.exponentPart_eq (h : IsExponent run text exponent) :
    exponentPart readDigits text = (exponent, []) := by
  cases h with
  | missing => rfl
  | @marked mark sgn text digits negative hmark hsign hdigits =>
    have hmark' : (mark == 'e' || mark == 'E') = true := by simpa using hmark
    have hsigned : sign (sgn ++ text) = (negative, text) :=
      hsign.sign_eq (by simpa using @head_of_run _ _ _ [] _ hreads hdigits)
    have hread := hreads.complete hdigits endsRun_nil
    rw [List.append_nil] at hread
    obtain ⟨hne, -⟩ := hreads.begins hdigits
    obtain ⟨c, more, rfl⟩ := List.exists_cons_of_ne_nil hne
    rw [exponentPart]
    simp only [hmark', if_true, hsigned, hread]

theorem exists_of_unsigned? (h : unsigned? readDigits negative cs = some (d, rest)) :
    ∃ mantissa whole fraction power exponent, cs = mantissa ++ (power ++ rest) ∧
      IsMantissa run mantissa whole fraction ∧ IsExponent run power exponent ∧
      d = ⟨negative, digitsValue (whole ++ fraction), exponent - fraction.length⟩ := by
  rw [unsigned?_eq] at h
  dsimp only at h
  split at h
  · cases h
  · rename_i hsome
    cases h
    rw [Bool.and_eq_true_iff, List.isEmpty_iff, List.isEmpty_iff, Classical.not_and_iff_not_or_not] at hsome
    obtain ⟨mantissa, hcs, hmantissa⟩ := exists_mantissa hreads rfl rfl hsome
    obtain ⟨power, hpower, hexponent⟩ := exists_exponent hreads rfl
    exact ⟨mantissa, _, _, power, _, hpower ▸ hcs, hmantissa, hexponent, rfl⟩

theorem IsMantissa.ne_nil (h : IsMantissa run text whole fraction) : whole ≠ [] ∨ fraction ≠ [] := by
  cases h with
  | whole hwhole | pointed hwhole | full hwhole => exact .inl (hreads.begins hwhole).1
  | fraction hfraction => exact .inr (hreads.begins hfraction).1

/-- A number that is the whole text is read as a whole. -/
theorem unsigned?_of_spelled {power : List Char} (hmantissa : IsMantissa run text whole fraction)
    (hpower : IsExponent run power exponent) : unsigned? readDigits negative (text ++ power) =
      some (⟨negative, digitsValue (whole ++ fraction), exponent - fraction.length⟩, []) := by
  obtain ⟨hends, hpoint⟩ := hpower.ends
  obtain ⟨cs', hwhole, hfraction⟩ := hmantissa.reads hreads hends hpoint
  rw [unsigned?_of_reads (hmantissa.ne_nil hreads) hwhole hfraction, hpower.exponentPart_eq hreads]

/-- A number, or what is left of it behind its sign, begins with no sign. -/
theorem IsMantissa.head (h : IsMantissa run text whole fraction) :
    ∀ c ∈ (text ++ rest).head?, c ≠ '-' ∧ c ≠ '+' := by
  cases h with
  | whole hwhole => exact head_of_run hreads hwhole
  | pointed hwhole | full hwhole =>
    rw [List.append_assoc]
    exact head_of_run hreads hwhole
  | fraction =>
    rintro c hc
    cases hc
    decide

/-- A text is read as a number, and nothing is left of it, exactly if it is written like one. -/
theorem unsigned?_eq_some_nil_iff : (∃ negative unsigned, sign text = (negative, unsigned) ∧
      unsigned? readDigits negative unsigned = some (d, [])) ↔ Spells run text d := by
  constructor
  · rintro ⟨negative, unsigned, hsigned, hread⟩
    obtain ⟨sgn, htext, hsign⟩ := exists_sign text
    rw [hsigned] at htext hsign
    obtain ⟨mantissa, whole, fraction, power, exponent, rfl, hmantissa, hpower, hd⟩ :=
      exists_of_unsigned? hreads hread
    exact ⟨sgn, negative, mantissa, whole, fraction, power, exponent, by simpa using htext, hsign,
      hmantissa, hpower, hd⟩
  · rintro ⟨sgn, negative, mantissa, whole, fraction, power, exponent, rfl, hsign, hmantissa, hpower, rfl⟩
    exact ⟨negative, mantissa ++ power, hsign.sign_eq (hmantissa.head hreads),
      unsigned?_of_spelled hreads hmantissa hpower⟩

end Reading

/-- What holds of the digits and marks of numbers holds of all their characters. -/
theorem Spells.forall_mem {P : Char → Prop} (hrun : ∀ {text digits}, run text digits → ∀ c ∈ text, P c)
    (hmarks : ∀ c ∈ ['.', '+', '-', 'e', 'E'], P c) (h : Spells run text d) : ∀ c ∈ text, P c := by
  simp only [List.forall_mem_cons, List.not_mem_nil, false_imp_iff, implies_true, and_true] at hmarks
  obtain ⟨hpoint, hplus, hminus, he, hE⟩ := hmarks
  have hsigned {text : List Char} {negative : Bool} (hsign : IsSign text negative) : ∀ c ∈ text, P c := by
    cases hsign with
    | missing => simp
    | plus => simpa using hplus
    | minus => simpa using hminus
  obtain ⟨sgn, negative, mantissa, whole, fraction, power, exponent, rfl, hsign, hmantissa, hpower, -⟩ := h
  refine List.forall_mem_append.mpr ⟨hsigned hsign, List.forall_mem_append.mpr ⟨?_, ?_⟩⟩
  · cases hmantissa with
    | whole hwhole => exact hrun hwhole
    | pointed hwhole => exact List.forall_mem_append.mpr ⟨hrun hwhole, by simpa using hpoint⟩
    | full hwhole hfraction =>
      exact List.forall_mem_append.mpr ⟨hrun hwhole, List.forall_mem_cons.mpr ⟨hpoint, hrun hfraction⟩⟩
    | fraction hfraction => exact List.forall_mem_cons.mpr ⟨hpoint, hrun hfraction⟩
  · cases hpower with
    | missing => simp
    | marked hmark hsign hdigits =>
      refine List.forall_mem_cons.mpr ⟨?_, List.forall_mem_append.mpr ⟨hsigned hsign, hrun hdigits⟩⟩
      rcases hmark with rfl | rfl
      · exact he
      · exact hE

end Parts

/-! ### The longest number -/

/-- A number at the beginning of a text, and the longest one there. -/
structure TakesLongest (text rest : List Char) (d : Decimal) : Prop where
  spelled : ∃ number, text = number ++ rest ∧ Spells IsRun number d
  longest : ∀ {number more d'}, text = number ++ more → Spells IsRun number d' → rest.length ≤ more.length

section Longest

variable {text cs rest whole fraction digits power : List Char} {negative : Bool} {exponent : Int} {d : Decimal}

theorem suffix_span (cs : List Char) : (cs.span isDigit).2 <:+ cs :=
  ⟨_, span_eq_append isDigit cs⟩

theorem suffix_fractionPart (cs : List Char) : (fractionPart (·.span isDigit) cs).2 <:+ cs := by
  unfold fractionPart
  split
  · exact (suffix_span _).trans (List.suffix_cons _ _)
  · exact List.suffix_rfl

theorem suffix_exponentPart (cs : List Char) : (exponentPart (·.span isDigit) cs).2 <:+ cs := by
  obtain ⟨text, htext, -⟩ := @exists_exponent _ _ cs _ _ readsRuns_span rfl
  exact ⟨text, htext.symm⟩

/-- Digits in front of a text are read, and perhaps some of its own. -/
theorem exists_span_append (h : IsRun text digits) (rest : List Char) :
    ∃ digits' rest', (text ++ rest).span isDigit = (digits', rest') ∧ digits' ≠ [] ∧ rest' <:+ rest := by
  obtain ⟨rfl, hne, hdigits⟩ := h
  refine ⟨_, _, List.span_eq_takeWhile_dropWhile _ _, ?_, ?_⟩
  · rw [List.takeWhile_append_of_pos hdigits]
    exact List.append_ne_nil_of_left_ne_nil hne _
  · rw [List.dropWhile_append_of_pos hdigits]
    exact List.dropWhile_suffix _

theorem IsMantissa.exists_reads (h : IsMantissa IsRun text whole fraction) (rest : List Char) :
    ∃ whole' fraction' cs' cs'', (text ++ rest).span isDigit = (whole', cs') ∧
      fractionPart (·.span isDigit) cs' = (fraction', cs'') ∧ (whole' ≠ [] ∨ fraction' ≠ []) ∧
      cs'' <:+ rest := by
  have hmark (cs : List Char) : EndsRun ('.' :: cs) := endsRun_cons (by decide) (by decide)
  cases h with
  | whole hwhole =>
    obtain ⟨digits, cs', hread, hne, hsuffix⟩ := exists_span_append hwhole rest
    exact ⟨digits, _, cs', _, hread, rfl, .inl hne, (suffix_fractionPart cs').trans hsuffix⟩
  | pointed hwhole =>
    rw [List.append_assoc]
    exact ⟨whole, _, '.' :: rest, _, readsRuns_span.complete hwhole (hmark rest), rfl,
      .inl (readsRuns_span.begins hwhole).1, suffix_span rest⟩
  | full hwhole hfraction =>
    obtain ⟨digits, cs'', hread, -, hsuffix⟩ := exists_span_append hfraction rest
    rw [List.append_assoc]
    exact ⟨whole, digits, _, cs'', readsRuns_span.complete hwhole (hmark _), hread,
      .inl (readsRuns_span.begins hwhole).1, hsuffix⟩
  | @fraction text _ hfraction =>
    obtain ⟨digits, cs'', hread, hne, hsuffix⟩ := exists_span_append hfraction rest
    refine ⟨[], digits, '.' :: (text ++ rest), cs'', readsRuns_span.none ?_, hread, .inr hne, hsuffix⟩
    rintro c hc
    cases hc
    decide

/-- However a number goes on, not less than the number is read. -/
theorem exists_unsigned?_append (hmantissa : IsMantissa IsRun text whole fraction)
    (hpower : IsExponent IsRun power exponent) (negative : Bool) (rest : List Char) :
    ∃ d rest', unsigned? (·.span isDigit) negative (text ++ (power ++ rest)) = some (d, rest') ∧
      rest' <:+ rest := by
  cases hpower with
  | missing =>
    obtain ⟨whole', fraction', cs', cs'', hwhole, hfraction, hsome, hsuffix⟩ := hmantissa.exists_reads rest
    exact ⟨_, _, unsigned?_of_reads hsome hwhole hfraction, (suffix_exponentPart cs'').trans hsuffix⟩
  | @marked mark sgn text' digits negative' hmark hsign hdigits =>
    obtain ⟨hends, hpoint⟩ := (IsExponent.marked hmark hsign hdigits).ends
    obtain ⟨cs', hwhole, hfraction⟩ := @IsMantissa.reads _ _ _ (mark :: (sgn ++ text') ++ rest) _ _
      readsRuns_span hmantissa hends hpoint
    refine ⟨_, _, unsigned?_of_reads (hmantissa.ne_nil readsRuns_span) hwhole hfraction, ?_⟩
    have hmark' : (mark == 'e' || mark == 'E') = true := by simpa using hmark
    obtain ⟨digits', rest', hread, hne, hsuffix⟩ := exists_span_append hdigits rest
    have hsigned : sign (sgn ++ (text' ++ rest)) = (negative', text' ++ rest) :=
      hsign.sign_eq (head_of_run readsRuns_span hdigits)
    obtain ⟨c, more, rfl⟩ := List.exists_cons_of_ne_nil hne
    rw [List.cons_append, List.append_assoc, exponentPart]
    simpa only [hmark', if_true, hsigned, hread] using hsuffix

theorem Spells.unique {d' : Decimal} (h : Spells IsRun text d) (h' : Spells IsRun text d') : d = d' := by
  obtain ⟨negative, unsigned, hsigned, hread⟩ := (unsigned?_eq_some_nil_iff readsRuns_span).mpr h
  obtain ⟨negative', unsigned', hsigned', hread'⟩ := (unsigned?_eq_some_nil_iff readsRuns_span).mpr h'
  obtain ⟨rfl, rfl⟩ := Prod.mk.inj (hsigned.symm.trans hsigned')
  exact (Prod.mk.inj (Option.some.inj (hread.symm.trans hread'))).1

theorem takesLongest_of_leading? (h : leading? cs = some (d, rest)) : TakesLongest (trimStart cs) rest d := by
  obtain ⟨sgn, htext, hsign⟩ := exists_sign (trimStart cs)
  refine ⟨?_, fun {number more d'} hnumber hspelled => ?_⟩
  · have hread : unsigned? (·.span isDigit) (sign (trimStart cs)).1 (sign (trimStart cs)).2 =
      some (d, rest) := h
    obtain ⟨mantissa, whole, fraction, power, exponent, hunsigned, hmantissa, hpower, rfl⟩ :=
      exists_of_unsigned? readsRuns_span hread
    refine ⟨sgn ++ (mantissa ++ power), ?_,
      sgn, _, mantissa, whole, fraction, power, exponent, rfl, hsign, hmantissa, hpower, rfl⟩
    rw [htext, hunsigned, List.append_assoc, List.append_assoc]
  · obtain ⟨sgn', negative, mantissa, whole, fraction, power, exponent, rfl, hsign', hmantissa, hpower, -⟩ :=
      hspelled
    have hsigned : sign (trimStart cs) = (negative, mantissa ++ (power ++ more)) := by
      rw [hnumber, List.append_assoc, List.append_assoc]
      exact hsign'.sign_eq (hmantissa.head readsRuns_span)
    obtain ⟨d'', rest', hread, hsuffix⟩ := exists_unsigned?_append hmantissa hpower negative more
    rw [leading?, hsigned] at h
    obtain ⟨-, rfl⟩ := Prod.mk.inj (Option.some.inj (hread.symm.trans h))
    exact hsuffix.length_le

/-- The number that a text begins with is the longest one that can be taken from it. -/
theorem leading?_eq_some_iff : leading? cs = some (d, rest) ↔ TakesLongest (trimStart cs) rest d := by
  refine ⟨takesLongest_of_leading?, fun h => ?_⟩
  obtain ⟨number, hnumber, hspelled⟩ := h.spelled
  obtain ⟨sgn, negative, mantissa, whole, fraction, power, exponent, rfl, hsign, hmantissa, hpower, -⟩ :=
    id hspelled
  obtain ⟨d', rest', hread, hsuffix⟩ := exists_unsigned?_append hmantissa hpower negative rest
  have hleading : leading? cs = some (d', rest') := by
    rw [leading?, hnumber, List.append_assoc, List.append_assoc,
      hsign.sign_eq (hmantissa.head readsRuns_span)]
    exact hread
  obtain ⟨number', hnumber', hspelled'⟩ := (takesLongest_of_leading? hleading).spelled
  obtain rfl := hsuffix.eq_of_length (le_antisymm hsuffix.length_le (h.longest hnumber' hspelled'))
  obtain rfl := List.append_cancel_right (hnumber.symm.trans hnumber')
  rw [hleading, hspelled.unique hspelled']

/-- A text is a number exactly if it is written like one, with single underscores between digits allowed
and white space around it. -/
theorem literal?_eq_some_iff : literal? cs = some d ↔ Spells IsGroupedRun (trim cs) d := by
  rw [← unsigned?_eq_some_nil_iff readsRuns_grouped, literal?]
  constructor
  · intro h
    dsimp only at h
    split at h
    · rename_i hread
      cases h
      exact ⟨_, _, rfl, hread⟩
    · cases h
  · rintro ⟨negative, unsigned, hsigned, hread⟩
    rw [hsigned]
    dsimp only
    rw [hread]

end Longest

/-! ### Numbers with a nearest double -/

theorem abs_toRat (d : Decimal) :
    |d.toRat| = (d.digits * 10 ^ d.exponent.toNat : Nat) / (10 ^ (-d.exponent).toNat : Nat) := by
  have hsign (q : Rat) : |if d.negative then -q else q| = |q| := by
    split
    · exact abs_neg q
    · rfl
  unfold toRat
  rw [hsign]
  split
  · have hnone : (-d.exponent).toNat = 0 := by omega
    rw [hnone, pow_zero, Nat.cast_one, div_one]
    exact Nat.abs_cast _
  · have hnone : d.exponent.toNat = 0 := by omega
    rw [hnone, pow_zero, mul_one, Rat.mkRat_eq_div]
    exact abs_of_nonneg (div_nonneg (Int.cast_nonneg (Int.natCast_nonneg _)) (Nat.cast_nonneg _))

/-- A number with too many places is beyond the bound. -/
theorem tooLarge_le_of_digitCount {n : Nat} {e : Int} (hn : 0 < n) (hplaces : 309 < digitCount n + e) :
    tooLarge * 10 ^ (-e).toNat ≤ n * 10 ^ e.toNat := by
  obtain ⟨m, hm, hlow, -⟩ := Extended.digitCount_spec hn
  obtain ⟨t, ht, hbound⟩ : ∃ t, t = 309 ∧ tooLarge ≤ 10 ^ t := ⟨309, rfl, by decide +kernel⟩
  calc tooLarge * 10 ^ (-e).toNat ≤ 10 ^ t * 10 ^ (-e).toNat := Nat.mul_le_mul_right _ hbound
    _ = 10 ^ (t + (-e).toNat) := (Nat.pow_add _ _ _).symm
    _ ≤ 10 ^ (m + e.toNat) := Nat.pow_le_pow_right (by decide) (by omega)
    _ = 10 ^ m * 10 ^ e.toNat := Nat.pow_add _ _ _
    _ ≤ n * 10 ^ e.toNat := Nat.mul_le_mul_right _ (by exact_mod_cast hlow)

theorem isFinite_of_lt_tooLarge {d : Decimal}
    (hlt : d.digits * 10 ^ d.exponent.toNat < tooLarge * 10 ^ (-d.exponent).toNat) : d.isFinite = true := by
  have hplaces (hpos : 0 < d.digits) : ¬309 < digitCount d.digits + d.exponent :=
    fun h => Nat.not_le_of_lt hlt (tooLarge_le_of_digitCount hpos h)
  unfold isFinite
  generalize tooLarge = bound at hlt ⊢
  split
  · rfl
  · rename_i hzero
    have hfew := hplaces (Nat.pos_of_ne_zero hzero)
    dsimp only
    split
    · rfl
    · rw [if_neg (by omega)]
      split
      · have hnone : (-d.exponent).toNat = 0 := by omega
        rw [hnone, pow_zero, mul_one] at hlt
        exact decide_eq_true hlt
      · have hnone : d.exponent.toNat = 0 := by omega
        rw [hnone, pow_zero, mul_one] at hlt
        exact decide_eq_true hlt

/-- A number has a nearest double exactly if it is below the bound. -/
theorem isFinite_iff {d : Decimal} : d.isFinite = true ↔ |d.toRat| < tooLarge := by
  have hpos : (0 : Rat) < (10 ^ (-d.exponent).toNat : Nat) := Nat.cast_pos.mpr (Nat.pow_pos (by decide))
  rw [abs_toRat, div_lt_iff₀ hpos, ← Nat.cast_mul, Nat.cast_lt]
  exact ⟨Binary64.lt_tooLarge_of_isFinite, isFinite_of_lt_tooLarge⟩

end Swatch.Decimal
