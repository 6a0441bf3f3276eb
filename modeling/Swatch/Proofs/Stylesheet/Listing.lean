import Mathlib.Data.List.Basic
import Swatch.Proofs.Detection.Token
import Swatch.Proofs.Stylesheet.Segment
import Swatch.Stylesheet.CustomProperty

/-!
Lists of declarations that are written one to a line. Main statement: such a list is read back line
by line, whichever of its lines end with a semicolon, and whether it stands in a rule or alone.
-/

namespace Swatch

open Text

namespace CustomProperty

/-- A character that a value of one line may hold. -/
def IsValueChar (c : Char) : Prop :=
  c ≠ '\n' ∧ c ≠ ';' ∧ c ≠ '\x7b' ∧ c ≠ '\x7d'

/-- A line that declares a custom property. The word is its name without the two hyphens. -/
structure Line where
  indent : List Char
  word : List Char
  value : List Char
  isTerminated : Bool
  isSpace_of_mem_indent : ∀ c ∈ indent, isSpace c = true
  word_ne_nil : word ≠ []
  isName_of_mem_word : ∀ c ∈ word, isName c = true
  value_ne_nil : value ≠ []
  isValueChar_of_mem_value : ∀ c ∈ value, IsValueChar c
  isBlank_head : ∀ c ∈ value.head?, isBlank c = false
  isBlank_getLast : ∀ c ∈ value.getLast?, isBlank c = false

namespace Line

def name (l : Line) : List Char :=
  '-' :: '-' :: l.word

def ending (l : Line) : List Char :=
  if l.isTerminated then [';'] else []

/-- What a line declares, with its semicolon if it has one. -/
def declaration (l : Line) : List Char :=
  l.name ++ ':' :: ' ' :: (l.value ++ l.ending)

def text (l : Line) : List Char :=
  l.indent ++ (l.declaration ++ ['\n'])

end Line

/-- What a list of declarations stands in: nothing, or a rule whose last line may be the last of the
text without a line break of its own. -/
inductive Frame where
  | bare
  | rule (breaksAfter : Bool)

namespace Frame

def opening : Frame → List Char
  | bare => []
  | rule _ => ":root \x7b\n".toList

def closing : Frame → List Char
  | bare => []
  | rule breaksAfter => '\x7d' :: if breaksAfter then ['\n'] else []

end Frame

def listing (f : Frame) (lines : List Line) : List Char :=
  f.opening ++ (lines.flatMap Line.text ++ f.closing)

/-- The custom properties of lines that stand from an offset of a text on. -/
def located : (offset : Nat) → List Line → List CustomProperty
  | _, [] => []
  | offset, l :: lines =>
    let start := offset + l.indent.length
    ⟨String.ofList l.name, String.ofList l.value, start, start + l.name.length⟩ ::
      located (offset + l.text.length) lines

/-! ### Values -/

section Value

variable {value more rest : List Char}

theorem isValueStart_cons {c : Char} (hc : IsValueChar c) (rest : List Char) :
    isValueStart (c :: rest) = true := by
  simp [isValueStart, hc.1, hc.2.1, hc.2.2.1, hc.2.2.2]

/-- Behind some blanks of a text comes a character of it, unless they reach to its end. -/
theorem head?_dropWhile_append (p : Char → Bool) (value more : List Char) :
    (∃ c ∈ value, ((value ++ more).dropWhile p).head? = some c) ∨
      (∀ c ∈ value, p c = true) ∧ (value ++ more).dropWhile p = more.dropWhile p := by
  induction value with
  | nil => exact Or.inr ⟨by simp, rfl⟩
  | cons c value ih =>
    cases hc : p c with
    | false => exact Or.inl ⟨c, List.mem_cons_self, by simp [hc]⟩
    | true =>
      rw [List.cons_append, List.dropWhile_cons_of_pos hc]
      rcases ih with ⟨d, hd, hhead⟩ | ⟨hall, hdrop⟩
      · exact Or.inl ⟨d, List.mem_cons_of_mem c hd, hhead⟩
      · exact Or.inr ⟨List.forall_mem_cons.mpr ⟨hc, hall⟩, hdrop⟩

theorem exists_head?_dropWhile_append {p : Char → Bool} (hne : value ≠ [])
    (hlast : ∀ c ∈ value.getLast?, p c = false) (more : List Char) :
    ∃ c ∈ value, ((value ++ more).dropWhile p).head? = some c := by
  rcases head?_dropWhile_append p value more with hhead | ⟨hall, -⟩
  · exact hhead
  · have hend := hlast _ (List.getLast?_eq_some_getLast hne)
    rw [hall _ (List.getLast_mem hne)] at hend
    cases hend

/-- No semicolon comes behind the blanks of a value, if it has none and what follows has none. -/
theorem head?_trimStart_append (hvalue : ∀ c ∈ value, IsValueChar c)
    (hmore : (trimStart more).head? ≠ some ';') : (trimStart (value ++ more)).head? ≠ some ';' := by
  rcases head?_dropWhile_append isBlank value more with ⟨c, hc, hhead⟩ | ⟨-, hdrop⟩
  · rw [trimStart, hhead]
    exact fun heq => (hvalue c hc).2.1 (Option.some.inj heq)
  · rwa [trimStart, hdrop]

theorem terminated?_cons {c : Char} (hc : IsValueChar c)
    (hrest : (trimStart rest).head? ≠ some ';') :
    terminated? (c :: rest) = (terminated? rest).map fun (value, after) => (c :: value, after) := by
  rw [terminated?, if_pos (isValueStart_cons hc rest)]
  split
  · rename_i after htrim
    rw [htrim] at hrest
    exact absurd rfl hrest
  · rfl

/-- A value with a semicolon right behind it is read up to the semicolon. -/
theorem terminated?_append_semicolon (hne : value ≠ []) (hvalue : ∀ c ∈ value, IsValueChar c)
    (hlast : ∀ c ∈ value.getLast?, isBlank c = false) :
    terminated? (value ++ ';' :: rest) = some (value, rest) := by
  induction value with
  | nil => exact absurd rfl hne
  | cons c value ih =>
    have hc := hvalue c List.mem_cons_self
    have hmore := fun d hd => hvalue d (List.mem_cons_of_mem c hd)
    cases value with
    | nil =>
      have htrim : trimStart (';' :: rest) = ';' :: rest := trimStart_eq_self (by simp; decide)
      rw [List.singleton_append, terminated?, if_pos (isValueStart_cons hc _)]
      simp only [htrim]
    | cons d value =>
      rw [List.getLast?_cons_cons] at hlast
      have hhead : (trimStart (d :: value ++ ';' :: rest)).head? ≠ some ';' := by
        obtain ⟨e, he, hhead⟩ :=
          exists_head?_dropWhile_append (List.cons_ne_nil d value) hlast (';' :: rest)
        rw [trimStart, hhead]
        exact fun heq => (hmore e he).2.1 (Option.some.inj heq)
      rw [List.cons_append, terminated?_cons hc hhead, ih (List.cons_ne_nil d value) hmore hlast]
      rfl

/-- A text that no value without a semicolon goes on into from the line before. -/
def EndsLineBefore (more : List Char) : Prop :=
  terminated? ('\n' :: more) = none ∧ (trimStart ('\n' :: more)).head? ≠ some ';'

theorem terminated?_append_newline (hvalue : ∀ c ∈ value, IsValueChar c)
    (hmore : EndsLineBefore more) : terminated? (value ++ '\n' :: more) = none := by
  induction value with
  | nil => exact hmore.1
  | cons c value ih =>
    have hrest := fun d hd => hvalue d (List.mem_cons_of_mem c hd)
    rw [List.cons_append, terminated?_cons (hvalue c List.mem_cons_self)
      (head?_trimStart_append hrest hmore.2), ih hrest]
    rfl

/-- Without a semicolon a value is read up to the end of its line. -/
theorem unterminated?_append_newline (hne : value ≠ []) (hvalue : ∀ c ∈ value, IsValueChar c)
    (hlast : ∀ c ∈ value.getLast?, isBlank c = false) :
    unterminated? (value ++ '\n' :: more) = some (value, '\n' :: more) := by
  induction value with
  | nil => exact absurd rfl hne
  | cons c value ih =>
    obtain ⟨hnewline, hsemicolon, hopen, hclose⟩ := hvalue c List.mem_cons_self
    have hrest := fun d hd => hvalue d (List.mem_cons_of_mem c hd)
    rw [List.cons_append, unterminated?, if_neg (by simp [*])]
    cases value with
    | nil =>
      rw [List.nil_append, List.dropWhile_cons_of_neg (by decide)]
      rfl
    | cons d value =>
      rw [List.getLast?_cons_cons] at hlast
      have hends : endsLine ((d :: value ++ '\n' :: more).dropWhile isSpace) = false := by
        have hspace : ∀ e ∈ (d :: value).getLast?, isSpace e = false := by
          intro e he
          cases hspace : isSpace e with
          | false => rfl
          | true => exact (isBlank_of_isSpace hspace).symm.trans (hlast e he)
        obtain ⟨e, he, hhead⟩ :=
          exists_head?_dropWhile_append (List.cons_ne_nil d value) hspace ('\n' :: more)
        obtain ⟨tail, htail⟩ := List.head?_eq_some_iff.mp hhead
        obtain ⟨hnewline, -, -, hclose⟩ := hrest e he
        rw [htail]
        simp [endsLine, hnewline, hclose]
      rw [ih (List.cons_ne_nil d value) hrest hlast]
      simp only [hends]
      rfl

end Value

/-! ### Lines -/

namespace Line

variable {l : Line} {more : List Char}

theorem declaration_append (l : Line) (more : List Char) : l.declaration ++ '\n' :: more =
    l.name ++ ':' :: ' ' :: (l.value ++ l.ending ++ '\n' :: more) := by
  simp [declaration]

theorem isPropertyName (l : Line) : IsPropertyName l.name :=
  ⟨l.word, rfl, l.word_ne_nil, l.isName_of_mem_word⟩

theorem name?_append_colon (l : Line) (rest : List Char) :
    name? (l.name ++ ':' :: rest) = some (l.name, ':' :: rest) :=
  @name?_append l.name [] rest l.isPropertyName (by simp)

/-- The value of a line is read up to its end, and so is the semicolon. -/
theorem valueAt?_append (hmore : EndsLineBefore more) :
    valueAt? (l.value ++ l.ending ++ '\n' :: more) = some (l.value, '\n' :: more) := by
  unfold ending valueAt?
  cases l.isTerminated with
  | true =>
    have hread : terminated? (l.value ++ ';' :: '\n' :: more) = some (l.value, '\n' :: more) :=
      terminated?_append_semicolon l.value_ne_nil l.isValueChar_of_mem_value l.isBlank_getLast
    simp [hread]
  | false =>
    have hnone := terminated?_append_newline l.isValueChar_of_mem_value hmore
    have hread : unterminated? (l.value ++ '\n' :: more) = some (l.value, '\n' :: more) :=
      unterminated?_append_newline l.value_ne_nil l.isValueChar_of_mem_value l.isBlank_getLast
    simp [hnone, hread]

theorem valueAfter?_append (hmore : EndsLineBefore more) :
    valueAfter? ((' ' :: (l.value ++ l.ending ++ '\n' :: more)).takeWhile isBlank).length
      (' ' :: (l.value ++ l.ending ++ '\n' :: more)) = some (l.value, '\n' :: more) := by
  obtain ⟨c, tail, hvalue⟩ := List.exists_cons_of_ne_nil l.value_ne_nil
  have hblank : isBlank c = false := l.isBlank_head c (by rw [hvalue]; rfl)
  have htake : ((' ' :: (l.value ++ l.ending ++ '\n' :: more)).takeWhile isBlank).length = 1 := by
    simp [hvalue, hblank, show isBlank ' ' = true by decide]
  rw [htake, valueAfter?, List.drop_one, List.tail_cons, valueAt?_append hmore]
  rfl

theorem read?_append {before : Option Char} (hbefore : startsAfter isName before = true)
    (hmore : EndsLineBefore more) :
    read? before (l.declaration ++ '\n' :: more) = some ((l.name, l.value), '\n' :: more) := by
  have htrim (rest : List Char) : trimStart (':' :: rest) = ':' :: rest :=
    trimStart_eq_self (by simp; decide)
  rw [read?, if_pos hbefore, declaration_append]
  simp only [name?_append_colon, htrim, valueAfter?_append hmore]
  rfl

/-- A value ends before a line that declares a property. -/
theorem endsValue_text (l : Line) (more : List Char) : endsValue (l.text ++ more) = true := by
  have hindent : (l.text ++ more).dropWhile isSpace = l.declaration ++ '\n' :: more := by
    rw [text, List.append_assoc, List.dropWhile_append_of_pos l.isSpace_of_mem_indent]
    simp only [declaration, name, List.cons_append, List.append_assoc, List.nil_append]
    exact List.dropWhile_cons_of_neg (by decide)
  have hrun : run? isName (l.declaration ++ '\n' :: more) =
      some (l.name, ':' :: ' ' :: (l.value ++ l.ending ++ '\n' :: more)) := by
    have hname : ∀ c ∈ l.name, isName c = true := by
      simp only [name, List.forall_mem_cons]
      exact ⟨by decide, by decide, l.isName_of_mem_word⟩
    rw [declaration_append]
    exact run?_append (List.cons_ne_nil _ _) hname (by simp; decide)
  simp [endsValue, hindent, hrun, meetsColon, show isSpace ':' = false by decide]

theorem endsLineBefore_text (l : Line) (more : List Char) : EndsLineBefore (l.text ++ more) := by
  constructor
  · simp [terminated?, isValueStart, endsValue_text]
  · have htrim : trimStart ('\n' :: (l.text ++ more)) = l.declaration ++ '\n' :: more := by
      rw [text, List.append_assoc, ← List.cons_append, trimStart_append]
      · simp
      · simp only [List.forall_mem_cons]
        exact ⟨by decide, fun c hc => isBlank_of_isSpace (l.isSpace_of_mem_indent c hc)⟩
      · simp [declaration, name]
        decide
    rw [htrim]
    simp [declaration, name]

end Line

theorem Frame.endsLineBefore_closing (f : Frame) : EndsLineBefore f.closing := by
  cases f with
  | bare => exact ⟨rfl, by decide⟩
  | rule breaksAfter => cases breaksAfter <;> exact ⟨by decide, by decide⟩

theorem endsLineBefore_lines (f : Frame) (lines : List Line) :
    EndsLineBefore (lines.flatMap Line.text ++ f.closing) := by
  cases lines with
  | nil => exact f.endsLineBefore_closing
  | cons l lines =>
    rw [List.flatMap_cons, List.append_assoc]
    exact l.endsLineBefore_text _

/-! ### Whole lists -/

theorem read?_eq_none {c : Char} (hc : c ≠ '-') (before : Option Char) (rest : List Char) :
    read? before (c :: rest) = none := by
  have hname : name? (c :: rest) = none := by
    unfold name?
    split
    · rename_i heq
      exact absurd (List.cons.inj heq).1 hc
    · rfl
  simp [read?, hname]

theorem ne_hyphen_of_isSpace {c : Char} (hc : isSpace c = true) : c ≠ '-' := by
  rintro rfl
  exact absurd hc (by decide)

/-- The character in front of a declaration belongs to no name: it is indentation, or what the line
itself stands behind. -/
theorem startsAfter_getLast?_indent (l : Line) {before : Option Char}
    (hbefore : startsAfter isName before = true) :
    startsAfter isName (l.indent.getLast?.or before) = true := by
  cases hlast : l.indent.getLast? with
  | none => exact hbefore
  | some c =>
    have hc := l.isSpace_of_mem_indent c (List.mem_of_getLast? hlast)
    simp [startsAfter, isName_of_isBlank (isBlank_of_isSpace hc)]

/-- Lines that stand behind no name are read one by one. -/
theorem filterMap_hitsFrom_lines (f : Frame) {lines : List Line} {before : Option Char} {offset : Nat}
    (hbefore : startsAfter isName before = true) :
    (hitsFrom read? before offset 0 (lines.flatMap Line.text ++ f.closing)).filterMap ofHit? =
      located offset lines := by
  induction lines generalizing before offset with
  | nil =>
    have hnone : ∀ c ∈ f.closing, ∀ before more, read? before (c :: more) = none := by
      intro c hc
      refine read?_eq_none ?_
      rintro rfl
      cases f with
      | bare => cases hc
      | rule breaksAfter => cases breaksAfter <;> revert hc <;> decide
    rw [List.flatMap_nil, List.nil_append, ← List.append_nil f.closing, hitsFrom_append_of_none hnone]
    rfl
  | cons l lines ih =>
    have hindent : ∀ c ∈ l.indent, ∀ before more, read? before (c :: more) = none :=
      fun c hc => read?_eq_none (ne_hyphen_of_isSpace (l.isSpace_of_mem_indent c hc))
    have hnewline : ∀ c ∈ ['\n'], ∀ before more, read? before (c :: more) = none := by
      intro c hc
      rw [List.mem_singleton.mp hc]
      exact read?_eq_none (by decide)
    have hread : read? (l.indent.getLast?.or before)
        (l.declaration ++ (['\n'] ++ (lines.flatMap Line.text ++ f.closing))) =
          some ((l.name, l.value), ['\n'] ++ (lines.flatMap Line.text ++ f.closing)) :=
      Line.read?_append (startsAfter_getLast?_indent l hbefore) (endsLineBefore_lines f lines)
    have htrim : trim l.value = l.value := trim_eq_self l.isBlank_head l.isBlank_getLast
    have hcs : (l :: lines).flatMap Line.text ++ f.closing = l.indent ++ (l.declaration ++
        (['\n'] ++ (lines.flatMap Line.text ++ f.closing))) := by
      simp [Line.text]
    have hlength : offset + l.indent.length + l.declaration.length + ['\n'].length =
        offset + l.text.length := by
      simp only [Line.text, List.length_append]
      omega
    rw [hcs, hitsFrom_append_of_none hindent,
      hitsFrom_append_of_read (by simp [Line.declaration, Line.name]) hread,
      hitsFrom_append_of_none hnewline, hlength, List.filterMap_cons, ih (by simp [startsAfter]; decide)]
    simp [ofHit?, htrim, l.value_ne_nil, located]

theorem map_located (offset : Nat) (lines : List Line) :
    (located offset lines).map (fun p => (p.name, p.value)) =
      lines.map fun l => (String.ofList l.name, String.ofList l.value) := by
  induction lines generalizing offset with
  | nil => rfl
  | cons l lines ih => rw [located, List.map_cons, List.map_cons, ih]

theorem stop_of_mem_all {cs : List Char} {p : CustomProperty} (hmem : p ∈ all cs) :
    p.stop = p.start + p.name.toList.length := by
  obtain ⟨front, gap, rest, h⟩ := exists_standsIn hmem
  exact h.stop_eq

/-- A list of declarations is read back: its names and values in their order, each name in its
place. -/
theorem all_listing (f : Frame) (lines : List Line) :
    (all (listing f lines)).map (fun p => (p.name, p.value)) =
        lines.map (fun l => (String.ofList l.name, String.ofList l.value)) ∧
      all (listing f lines) = located f.opening.length lines ∧
      ∀ p ∈ all (listing f lines),
        ((listing f lines).drop p.start).take (p.stop - p.start) = p.name.toList := by
  have hopening : ∀ c ∈ f.opening, ∀ before more, read? before (c :: more) = none := by
    intro c hc
    refine read?_eq_none ?_
    rintro rfl
    cases f with
    | bare => cases hc
    | rule breaksAfter => exact absurd hc (by decide : '-' ∉ ":root \x7b\n".toList)
  have hbefore : startsAfter isName (f.opening.getLast?.or none) = true := by
    cases f with
    | bare => rfl
    | rule breaksAfter =>
      exact (by decide : startsAfter isName (":root \x7b\n".toList.getLast?.or none) = true)
  have hall : all (listing f lines) = located f.opening.length lines := by
    rw [all, hits, listing, hitsFrom_append_of_none hopening, Nat.zero_add,
      filterMap_hitsFrom_lines f hbefore]
  refine ⟨?_, hall, fun p hp => ?_⟩
  · rw [hall, map_located]
  · have htake := (standsAt_of_mem_all hp).take_eq
    rwa [stop_of_mem_all hp, Nat.add_sub_cancel_left]

end CustomProperty

end Swatch
