import Swatch.Proofs.Stylesheet.Layout

/-!
The lines that the value of a declaration reaches. A value goes on to no line that declares something,
but nothing keeps it from beginning on one, for white space between the colon and the value may break
the line. Main statement: a declaration reaches a later line that declares something exactly if its value
begins on such a line.
-/

namespace Swatch

open Text

/-! ### Lines -/

/-- A text up to its first line break. -/
def firstLine (cs : List Char) : List Char :=
  cs.takeWhile (· != '\n')

/-- The line of a text that an offset lies on. -/
def lineAt (cs : List Char) (offset : Nat) : List Char :=
  (firstLine (cs.take offset).reverse).reverse ++ firstLine (cs.drop offset)

/-- Whether an offset lies on a later line than another one: a line break stands between them. -/
def IsBelow (cs : List Char) (upper lower : Nat) : Prop :=
  ∃ place, upper ≤ place ∧ place < lower ∧ cs[place]? = some '\n'

section Lines

variable {front middle back : List Char}

theorem firstLine_newline (cs : List Char) : firstLine ('\n' :: cs) = [] :=
  List.takeWhile_cons_of_neg (by decide)

theorem firstLine_append (h : '\n' ∉ front) : firstLine (front ++ back) = front ++ firstLine back := by
  refine List.takeWhile_append_of_pos fun c hc => ?_
  rw [bne_iff_ne]
  exact fun heq => h (heq ▸ hc)

theorem firstLine_cons {c : Char} (hc : c ≠ '\n') (cs : List Char) :
    firstLine (c :: cs) = c :: firstLine cs :=
  List.takeWhile_cons_of_pos (bne_iff_ne.mpr hc)

theorem lineAt_length (front back : List Char) :
    lineAt (front ++ back) front.length = (firstLine front.reverse).reverse ++ firstLine back := by
  rw [lineAt, List.take_left, List.drop_left]

/-- Offsets with no line break between them lie on one line. -/
theorem lineAt_append (h : '\n' ∉ middle) :
    lineAt (front ++ (middle ++ back)) (front ++ middle).length =
      lineAt (front ++ (middle ++ back)) front.length := by
  have hreverse : '\n' ∉ middle.reverse := fun hmem => h (List.mem_reverse.mp hmem)
  rw [lineAt_length, firstLine_append h, ← List.append_assoc front, lineAt_length, List.reverse_append,
    firstLine_append hreverse, List.reverse_append, List.reverse_reverse, List.append_assoc]

/-- The line of an offset begins behind the last line break in front of it. -/
theorem lineAt_below (h : '\n' ∉ middle) :
    lineAt (front ++ '\n' :: (middle ++ back)) (front ++ '\n' :: middle).length =
      firstLine (middle ++ back) := by
  have hsame := @lineAt_append (front ++ ['\n']) middle back h
  rw [lineAt_length, List.reverse_append, List.reverse_singleton, List.singleton_append, firstLine_newline,
    List.reverse_nil, List.nil_append] at hsame
  simpa only [List.append_assoc, List.singleton_append] using hsame

theorem IsBelow.trans_iff {cs : List Char} {upper between lower : Nat} (hupper : upper ≤ between)
    (hlower : between ≤ lower) :
    IsBelow cs upper lower ↔ IsBelow cs upper between ∨ IsBelow cs between lower := by
  constructor
  · rintro ⟨place, hle, hlt, hplace⟩
    rcases Nat.lt_or_ge place between with hbetween | hbetween
    · exact .inl ⟨place, hle, hbetween, hplace⟩
    · exact .inr ⟨place, hbetween, hlt, hplace⟩
  · rintro (⟨place, hle, hlt, hplace⟩ | ⟨place, hle, hlt, hplace⟩)
    · exact ⟨place, hle, by omega, hplace⟩
    · exact ⟨place, by omega, hlt, hplace⟩

theorem isBelow_append : IsBelow (front ++ (middle ++ back)) front.length (front ++ middle).length ↔
    '\n' ∈ middle := by
  rw [List.length_append, List.mem_iff_getElem?]
  constructor
  · rintro ⟨place, hle, hlt, hplace⟩
    rw [List.getElem?_append_right hle, List.getElem?_append_left (by omega)] at hplace
    exact ⟨place - front.length, hplace⟩
  · rintro ⟨i, hi⟩
    obtain ⟨hlt, -⟩ := List.getElem?_eq_some_iff.mp hi
    refine ⟨front.length + i, Nat.le_add_right _ _, by omega, ?_⟩
    rw [List.getElem?_append_right (Nat.le_add_right _ _), Nat.add_sub_cancel_left,
      List.getElem?_append_left hlt, hi]

end Lines

namespace CustomProperty

/-- Whether a line, or the rest of one behind a character, declares a custom property: a name that does
not go on another one, blanks and a colon. -/
def Declares (before : Option Char) (line : List Char) : Prop :=
  ∃ front name blanks rest, line = front ++ (name ++ (blanks ++ ':' :: rest)) ∧ IsPropertyName name ∧
    (∀ c ∈ blanks, isSpace c = true) ∧ ∀ c ∈ front.getLast?.or before, isName c = false

section Declares

variable {before : Option Char} {line rest : List Char} {c : Char}

theorem not_declares_nil : ¬Declares before [] := by
  rintro ⟨front, name, blanks, rest, heq, -⟩
  simp at heq

theorem startsAfter_iff : startsAfter isName before = true ↔ ∀ c ∈ before, isName c = false := by
  cases before <;> simp [startsAfter]

/-- A line declares something here or further on. -/
theorem declares_cons : Declares before (c :: line) ↔
    (startsAfter isName before = true ∧ ∃ name blanks rest, c :: line = name ++ (blanks ++ ':' :: rest) ∧
      IsPropertyName name ∧ ∀ d ∈ blanks, isSpace d = true) ∨ Declares (some c) line := by
  constructor
  · rintro ⟨front, name, blanks, rest, heq, hname, hblanks, hfront⟩
    cases front with
    | nil =>
      exact .inl ⟨startsAfter_iff.mpr hfront, name, blanks, rest, heq, hname, hblanks⟩
    | cons d front =>
      obtain ⟨rfl, rfl⟩ := List.cons.inj heq
      rw [getLast?_cons_or] at hfront
      exact .inr ⟨front, name, blanks, rest, rfl, hname, hblanks, hfront⟩
  · rintro (⟨hbefore, name, blanks, rest, heq, hname, hblanks⟩ |
      ⟨front, name, blanks, rest, rfl, hname, hblanks, hfront⟩)
    · exact ⟨[], name, blanks, rest, heq, hname, hblanks, startsAfter_iff.mp hbefore⟩
    · exact ⟨c :: front, name, blanks, rest, rfl, hname, hblanks, by rwa [getLast?_cons_or]⟩

theorem declares_newline_iff : Declares (some '\n') line ↔ Declares none line := by
  have hnewline : isName '\n' = false := by decide
  refine exists_congr fun front => exists_congr fun name => exists_congr fun blanks =>
    exists_congr fun rest => and_congr_right' (and_congr_right' (and_congr_right' ?_))
  cases front.getLast? <;> simp [hnewline]

theorem IsPropertyName.newline_notMem {name : List Char} (h : IsPropertyName name) : '\n' ∉ name := by
  obtain ⟨word, rfl, -, hword⟩ := h
  have hmem : '\n' ∉ word := fun hmem => absurd (hword _ hmem) (by decide)
  simp [hmem]

theorem meetsColon_iff : meetsColon line = true ↔
    ∃ blanks rest, line = blanks ++ ':' :: rest ∧ ∀ c ∈ blanks, isSpace c = true := by
  rw [meetsColon, beq_iff_eq]
  constructor
  · intro h
    obtain ⟨rest, hrest⟩ := List.head?_eq_some_iff.mp h
    refine ⟨line.takeWhile isSpace, rest, ?_, fun _ => List.mem_takeWhile_imp⟩
    rw [← hrest, List.takeWhile_append_dropWhile]
  · rintro ⟨blanks, rest, rfl, hblanks⟩
    rw [List.dropWhile_append_of_pos hblanks, List.dropWhile_cons_of_neg (by decide)]
    rfl

/-- A name, blanks and a colon at the beginning of a line are read there, whatever follows the line. -/
theorem declaresHere_iff : (∃ name after, name? line = some (name, after) ∧ meetsColon after = true) ↔
    ∃ name blanks rest, firstLine line = name ++ (blanks ++ ':' :: rest) ∧
      IsPropertyName name ∧ ∀ d ∈ blanks, isSpace d = true := by
  constructor
  · rintro ⟨name, after, hread, hcolon⟩
    obtain ⟨hname, rfl⟩ := isPropertyName_of_name? hread
    obtain ⟨blanks, rest, rfl, hblanks⟩ := meetsColon_iff.mp hcolon
    have hspaces : '\n' ∉ blanks := fun hmem => absurd (hblanks _ hmem) (by decide)
    refine ⟨name, blanks, firstLine rest, ?_, hname, hblanks⟩
    rw [firstLine_append hname.newline_notMem, firstLine_append hspaces, firstLine_cons (by decide)]
  · rintro ⟨name, blanks, rest, hline, hname, hblanks⟩
    have hwhole : line = name ++ (blanks ++ ':' :: (rest ++ line.dropWhile (· != '\n'))) :=
      calc line = firstLine line ++ line.dropWhile (· != '\n') :=
            List.takeWhile_append_dropWhile.symm
        _ = _ := by rw [hline]; simp only [List.append_assoc, List.cons_append]
    rw [hwhole]
    exact ⟨name, _, name?_append hname hblanks, meetsColon_iff.mpr ⟨blanks, _, rfl, hblanks⟩⟩

theorem lineDeclares_cons {cs : List Char} : lineDeclares before (c :: cs) = true ↔
    (startsAfter isName before = true ∧
      ∃ name after, name? (c :: cs) = some (name, after) ∧ meetsColon after = true) ∨
      c ≠ '\n' ∧ lineDeclares (some c) cs = true := by
  rw [lineDeclares]
  cases name? (c :: cs) with
  | none => simp
  | some found =>
    obtain ⟨name, after⟩ := found
    simp

/-- Looking for a declaration on the first line of a text finds it. -/
theorem lineDeclares_iff {cs : List Char} :
    lineDeclares before cs = true ↔ Declares before (firstLine cs) := by
  induction cs generalizing before with
  | nil => exact iff_of_false Bool.false_ne_true not_declares_nil
  | cons c cs ih =>
    rw [lineDeclares_cons, declaresHere_iff, ih]
    by_cases hc : c = '\n'
    · subst hc
      simp [firstLine_newline, not_declares_nil]
    · rw [firstLine_cons hc, declares_cons, and_iff_right hc]

end Declares

/-! ### Values -/

/-- Whether a declaration reaches a line below the one of its name that declares a custom property: a
character of its value stands there. -/
def Swallows (p : CustomProperty) (cs : List Char) : Prop :=
  ∃ offset, p.valueStart cs ≤ offset ∧ offset < p.valueStop cs ∧ IsBelow cs p.start offset ∧
    Declares none (lineAt cs offset)

section Values

variable {p : CustomProperty} {cs front gap rest : List Char}

/-- A value has no line break in front of a line that declares something. -/
theorem IsValue.not_declares {value before behind : List Char} (h : IsValue value rest)
    (hvalue : value = before ++ '\n' :: behind) : ¬Declares none (firstLine (behind ++ rest)) := by
  intro hdeclares
  have hends := h.endsValue_eq before behind hvalue
  rw [endsValue, Bool.or_eq_false_iff] at hends
  rw [← declares_newline_iff, ← lineDeclares_iff, hends.2] at hdeclares
  cases hdeclares

/-- A text by the value of a declaration in it and a place in the value. -/
theorem StandsIn.split (h : p.StandsIn cs front gap rest) {offset : Nat}
    (hle : p.valueStart cs ≤ offset) (hlt : offset < p.valueStop cs) :
    ∃ head before behind, p.value.toList = before ++ behind ∧
      cs = head ++ (before ++ (behind ++ rest)) ∧ head.length = p.valueStart cs ∧
      (head ++ before).length = offset := by
  have hstart := h.valueStart_eq
  rw [h.stop_eq, h.start_eq] at hstart
  rw [valueStop] at hlt
  refine ⟨front ++ (p.name.toList ++ gap), p.value.toList.take (offset - p.valueStart cs),
    p.value.toList.drop (offset - p.valueStart cs), (List.take_append_drop _ _).symm, ?_, ?_, ?_⟩
  · rw [← List.append_assoc (List.take _ _), List.take_append_drop]
    simpa only [List.append_assoc] using h.eq
  · simp only [List.length_append]
    omega
  · simp only [List.length_append, List.length_take]
    omega

/-- A later line that a value goes on to declares nothing. -/
theorem StandsIn.not_declares (h : p.StandsIn cs front gap rest) {offset : Nat}
    (hle : p.valueStart cs ≤ offset) (hlt : offset < p.valueStop cs)
    (hbelow : IsBelow cs (p.valueStart cs) offset) : ¬Declares none (lineAt cs offset) := by
  obtain ⟨head, before, behind, hvalue, rfl, hstart, rfl⟩ := h.split hle hlt
  rw [← hstart] at hbelow
  -- The last line break in front of the offset is one of the value.
  obtain ⟨line, upper, hreverse, hline⟩ :=
    List.eq_append_cons_of_mem (List.mem_reverse.mpr (isBelow_append.mp hbelow))
  obtain rfl : before = upper.reverse ++ '\n' :: line.reverse := by
    rw [← List.reverse_reverse before, hreverse]
    simp
  have hlineAt := @lineAt_below (head ++ upper.reverse) line.reverse (behind ++ rest)
    fun hmem => hline (List.mem_reverse.mp hmem)
  simp only [List.append_assoc, List.cons_append] at hlineAt hvalue ⊢
  rw [hlineAt, ← List.append_assoc]
  exact h.isValue.not_declares hvalue

theorem StandsIn.not_isBelow_stop (h : p.StandsIn cs front gap rest) : ¬IsBelow cs p.start p.stop := by
  rw [h.stop_eq, h.start_eq, ← List.length_append, h.eq, isBelow_append]
  exact h.isPropertyName.newline_notMem

theorem StandsIn.swallows_iff_below (h : p.StandsIn cs front gap rest) : p.Swallows cs ↔
    IsBelow cs p.stop (p.valueStart cs) ∧ Declares none (lineAt cs (p.valueStart cs)) := by
  have hplaced := h.isPlaced
  have hstop := hplaced.start_lt_stop.le
  have hvalueStart := hplaced.stop_lt_valueStart.le
  constructor
  · rintro ⟨offset, hle, hlt, hbelow, hdeclares⟩
    have hsame : ¬IsBelow cs (p.valueStart cs) offset := fun hlater => h.not_declares hle hlt hlater hdeclares
    have hgap : IsBelow cs p.stop (p.valueStart cs) := by
      rw [IsBelow.trans_iff (hstop.trans hvalueStart) hle, IsBelow.trans_iff hstop hvalueStart] at hbelow
      exact (hbelow.resolve_right hsame).resolve_left h.not_isBelow_stop
    obtain ⟨head, before, behind, -, rfl, hstart, rfl⟩ := h.split hle hlt
    rw [← hstart, isBelow_append] at hsame
    rw [lineAt_append hsame, hstart] at hdeclares
    exact ⟨hgap, hdeclares⟩
  · rintro ⟨hbelow, hdeclares⟩
    refine ⟨p.valueStart cs, Nat.le_refl _, ?_, ?_, hdeclares⟩
    · exact Nat.lt_add_of_pos_right (List.length_pos_iff.mpr hplaced.value_ne_nil)
    · exact (IsBelow.trans_iff hstop hvalueStart).mpr (.inr hbelow)

/-- A value goes on to no line that declares something, and a declaration reaches such a line below its
name exactly if the white space in front of its value leads there. -/
theorem swallows_iff (hmem : p ∈ all cs) :
    (∀ offset, p.valueStart cs ≤ offset → offset < p.valueStop cs →
        IsBelow cs (p.valueStart cs) offset → ¬Declares none (lineAt cs offset)) ∧
      (p.Swallows cs ↔
        IsBelow cs p.stop (p.valueStart cs) ∧ Declares none (lineAt cs (p.valueStart cs))) := by
  obtain ⟨front, gap, rest, h⟩ := exists_standsIn hmem
  exact ⟨fun _ => h.not_declares, h.swallows_iff_below⟩

theorem swallows_iff_wrappedShadow :
    ⟨"--shadow", "0 1px\n  2px", 0, 8⟩ ∈ all "--shadow: 0 1px\n  2px;\n--a: #fff;".toList ∧
      ¬Declares none (lineAt "--shadow: 0 1px\n  2px;\n--a: #fff;".toList 18) ∧
      ¬Swallows ⟨"--shadow", "0 1px\n  2px", 0, 8⟩ "--shadow: 0 1px\n  2px;\n--a: #fff;".toList := by
  have hmem : ⟨"--shadow", "0 1px\n  2px", 0, 8⟩ ∈ all "--shadow: 0 1px\n  2px;\n--a: #fff;".toList := by
    decide +kernel
  obtain ⟨hlater, hswallows⟩ := swallows_iff hmem
  refine ⟨hmem, hlater 18 (by decide +kernel) (by decide +kernel) ⟨15, by decide +kernel⟩, fun h => ?_⟩
  obtain ⟨⟨place, hle, hlt, hplace⟩, -⟩ := hswallows.mp h
  have hstart : valueStart ⟨"--shadow", "0 1px\n  2px", 0, 8⟩
      "--shadow: 0 1px\n  2px;\n--a: #fff;".toList = 10 := by decide +kernel
  rw [hstart] at hlt
  change 8 ≤ place at hle
  obtain rfl | rfl : place = 8 ∨ place = 9 := by omega
  · exact absurd hplace (by decide +kernel)
  · exact absurd hplace (by decide +kernel)

/-- A declaration whose value is missing takes the one on the next line for it. -/
theorem swallows_of_missingValue :
    ⟨"--a", "--b: #fff", 0, 3⟩ ∈ all "--a:\n--b: #fff;".toList ∧
      Swallows ⟨"--a", "--b: #fff", 0, 3⟩ "--a:\n--b: #fff;".toList := by
  have hname : IsPropertyName "--b".toList :=
    ⟨['b'], rfl, List.cons_ne_nil _ _, List.forall_mem_singleton.mpr (by decide)⟩
  exact ⟨by decide +kernel, 5, by decide +kernel, by decide +kernel, ⟨4, by decide +kernel⟩,
    [], "--b".toList, [], " #fff;".toList, by decide +kernel, hname, by simp, by simp⟩

end Values

end CustomProperty

end Swatch
