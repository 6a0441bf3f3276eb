import Swatch.Proofs.Color.Form
import Swatch.Proofs.Color.Reading
import Swatch.Proofs.Text.Trimming

/-!
What a text that begins like a call of a colour function may hold and still be a colour. The call is
closed by the last bracket of the text, whatever stands between; and of its arguments some are read as
far as a number goes, and those after the fourth not at all. Main statement: such a text is a colour
exactly if its first three arguments can be read, and the brackets inside it are those in what has not
been read.
-/

namespace Swatch

open Text

/-! ### Brackets -/

def isBracket (c : Char) : Bool :=
  c == '(' || c == ')'

/-- The brackets of a text, in their order. -/
def brackets (cs : List Char) : List Char :=
  cs.filter isBracket

theorem brackets_append (cs ds : List Char) : brackets (cs ++ ds) = brackets cs ++ brackets ds :=
  List.filter_append _ _

theorem brackets_eq_nil_iff {cs : List Char} : brackets cs = [] ↔ ∀ c ∈ cs, isBracket c = false := by
  simp [brackets, List.filter_eq_nil_iff]

section Readers

variable {p : Char → Bool} {readDigits : List Char → List Char × List Char}

/-- What belongs to a class of characters without the brackets is none. -/
theorem isBracket_eq_false (hopen : p '(' = false) (hclose : p ')' = false) {c : Char}
    (hc : p c = true) : isBracket c = false := by
  rw [isBracket, Bool.or_eq_false_iff, beq_eq_false_iff_ne, beq_eq_false_iff_ne]
  constructor
  · rintro rfl
    exact Bool.false_ne_true (hopen.symm.trans hc)
  · rintro rfl
    exact Bool.false_ne_true (hclose.symm.trans hc)

/-- To drop characters that are no brackets leaves the brackets. -/
theorem brackets_dropWhile (hopen : p '(' = false) (hclose : p ')' = false) (cs : List Char) :
    brackets (cs.dropWhile p) = brackets cs := by
  have hnone : brackets (cs.takeWhile p) = [] :=
    brackets_eq_nil_iff.mpr fun c hc => isBracket_eq_false hopen hclose (List.mem_takeWhile_imp hc)
  conv_rhs => rw [← cs.takeWhile_append_dropWhile (p := p), brackets_append, hnone, List.nil_append]

theorem brackets_sign (cs : List Char) : brackets (Decimal.sign cs).2 = brackets cs := by
  unfold Decimal.sign
  split <;> rfl

theorem brackets_cons {c : Char} (hc : isBracket c = false) (cs : List Char) :
    brackets (c :: cs) = brackets cs :=
  List.filter_cons_of_neg (by simp [hc])

theorem brackets_groupedTail (cs : List Char) : brackets (Decimal.groupedTail cs).2 = brackets cs := by
  have hdigit {c : Char} (hc : isDigit c = true) : isBracket c = false :=
    isBracket_eq_false (by decide) (by decide) hc
  fun_induction Decimal.groupedTail cs with
  | case1 => rfl
  | case2 c hc => exact (brackets_cons (hdigit hc) []).symm
  | case3 => rfl
  | case4 c d rest hc digits after heq ih =>
    rw [brackets_cons (hdigit hc), ← ih, heq]
  | case5 c d rest _ hc digits after heq ih =>
    obtain ⟨hmark, hd⟩ := Bool.and_eq_true_iff.mp hc
    obtain rfl := beq_iff_eq.mp hmark
    rw [brackets_cons rfl, brackets_cons (hdigit hd), ← ih, heq]
  | case6 => rfl

theorem brackets_grouped (cs : List Char) : brackets (Decimal.grouped cs).2 = brackets cs := by
  unfold Decimal.grouped
  split
  · split
    · rename_i hc
      rw [brackets_cons (isBracket_eq_false (by decide) (by decide) hc)]
      exact brackets_groupedTail _
    · rfl
  · rfl

theorem brackets_exponentPart (hdigits : ∀ cs, brackets (readDigits cs).2 = brackets cs) (cs : List Char) :
    brackets (Decimal.exponentPart readDigits cs).2 = brackets cs := by
  unfold Decimal.exponentPart
  split
  · rename_i mark rest
    split
    · rename_i hmark
      have hnone : isBracket mark = false :=
        @isBracket_eq_false (fun c => c == 'e' || c == 'E') (by decide) (by decide) mark hmark
      have hread : brackets (readDigits (Decimal.sign rest).2).2 = brackets (mark :: rest) := by
        rw [hdigits, brackets_sign, brackets_cons hnone]
      generalize Decimal.sign rest = signed at hread ⊢
      dsimp only
      split
      · rfl
      · rename_i heq
        rwa [heq] at hread
    · rfl
  · rfl

theorem brackets_unsigned? (hdigits : ∀ cs, brackets (readDigits cs).2 = brackets cs) {negative : Bool}
    {cs rest : List Char} {d : Decimal}
    (h : Decimal.unsigned? readDigits negative cs = some (d, rest)) : brackets rest = brackets cs := by
  unfold Decimal.unsigned? at h
  dsimp only at h
  split at h
  · rename_i heq
    split at h
    · cases h
    · cases h
      rw [brackets_exponentPart hdigits, hdigits, ← hdigits cs, heq, brackets_cons rfl]
  · split at h
    · cases h
    · cases h
      rw [brackets_exponentPart hdigits, hdigits]

/-- A number at the beginning of a text has no bracket. -/
theorem brackets_leading? {cs rest : List Char} {d : Decimal}
    (h : Decimal.leading? cs = some (d, rest)) : brackets rest = brackets cs := by
  have hdigits (cs : List Char) : brackets (cs.span isDigit).2 = brackets cs := by
    rw [List.span_eq_takeWhile_dropWhile]
    exact brackets_dropWhile (by decide) (by decide) cs
  unfold Decimal.leading? at h
  generalize hsign : Decimal.sign (trimStart cs) = signed at h
  rw [brackets_unsigned? hdigits h, ← hsign, brackets_sign]
  exact brackets_dropWhile (by decide) (by decide) cs

theorem brackets_trim (cs : List Char) : brackets (trim cs) = brackets cs :=
  filter_trim (fun _ hc => isBracket_eq_false (by decide) (by decide) hc) cs

theorem brackets_literal? {cs : List Char} {d : Decimal} (h : Decimal.literal? cs = some d) :
    brackets cs = [] := by
  unfold Decimal.literal? at h
  generalize hsign : Decimal.sign (trim cs) = signed at h
  dsimp only at h
  split at h
  · rename_i heq
    have hread := brackets_unsigned? brackets_grouped heq
    rw [← hsign, brackets_sign, brackets_trim] at hread
    exact hread.symm
  · cases h

end Readers

theorem brackets_pieces (cs : List Char) : brackets (pieces isSeparator cs).flatten = brackets cs := by
  rw [flatten_pieces, brackets, List.filter_filter, brackets]
  refine List.filter_congr fun c _ => ?_
  cases hc : isSeparator c with
  | false => rw [Bool.not_false, Bool.and_true]
  | true => rw [@isBracket_eq_false isSeparator (by decide) (by decide) c hc, Bool.false_and]

namespace Color

/-! ### Arguments -/

/-- Whether a text begins with a number, and one that has a nearest double. -/
def BeginsWithNumber (part : List Char) : Prop :=
  ∃ d rest, Decimal.leading? part = some (d, rest) ∧ d.isFinite = true

/-- Whether a text is such a number and nothing else. -/
def IsLiteral (part : List Char) : Prop :=
  ∃ d, Decimal.literal? part = some d ∧ d.isFinite = true

/-- What is left of a text behind the number that it begins with. -/
def afterNumber (part : List Char) : List Char :=
  match Decimal.leading? part with
  | some (_, rest) => rest
  | none => part

theorem brackets_afterNumber (part : List Char) : brackets (afterNumber part) = brackets part := by
  unfold afterNumber
  split
  · rename_i hread
    exact brackets_leading? hread
  · rfl

/-- What is not read of the arguments behind the components: all but the number of the opacity. -/
def afterOpacity : List (List Char) → List Char
  | [] => []
  | alpha :: others => afterNumber alpha ++ others.flatten

theorem brackets_afterOpacity (more : List (List Char)) :
    brackets (afterOpacity more) = brackets more.flatten := by
  cases more with
  | nil => rfl
  | cons alpha others =>
    rw [afterOpacity, brackets_append, brackets_afterNumber, List.flatten_cons, brackets_append]

/-- The functions that a colour may be a call of. Their names may have an `a` at the end. -/
inductive Function where
  | rgb
  | hsl
  deriving DecidableEq, Repr

namespace Function

def initial : Function → Char
  | rgb => 'r'
  | hsl => 'h'

def letters : Function → List Char
  | rgb => ['r', 'g', 'b']
  | hsl => ['h', 's', 'l']

def ofCall {α : Type} [Scalar α] :
    Function → (text body : List Char) → Except ArithmeticError (Option (Color α))
  | rgb => ofRgbCall
  | hsl => ofHslCall

/-- Whether an argument can be read as one of the three components. -/
def Reads (f : Function) (part : List Char) : Prop :=
  match f with
  | rgb => if part.getLast? = some '%' then BeginsWithNumber part else IsLiteral part
  | hsl => BeginsWithNumber part

/-- What is not read of such an argument, the sign of a percentage aside. -/
def leaves (f : Function) (part : List Char) : List Char :=
  match f with
  | rgb => if part.getLast? = some '%' then afterNumber part else []
  | hsl => afterNumber part

def ReadsAll (f : Function) (arguments : List (List Char)) : Prop :=
  ∃ x y z more, arguments = x :: y :: z :: more ∧ f.Reads x ∧ f.Reads y ∧ f.Reads z

theorem readsAll_cons {f : Function} {x y z : List Char} {more : List (List Char)} :
    f.ReadsAll (x :: y :: z :: more) ↔ f.Reads x ∧ f.Reads y ∧ f.Reads z := by
  simp [ReadsAll]

/-- What is not read of the arguments: behind the numbers of the components and of the opacity, and from
the fifth one on. -/
def unread (f : Function) : List (List Char) → List Char
  | x :: y :: z :: more => f.leaves x ++ (f.leaves y ++ (f.leaves z ++ afterOpacity more))
  | arguments => arguments.flatten

section Unread

variable {f : Function} {part : List Char} {arguments : List (List Char)}

theorem brackets_leaves (h : f.Reads part) : brackets (f.leaves part) = brackets part := by
  cases f with
  | rgb =>
    by_cases hpercent : part.getLast? = some '%'
    · simp only [leaves, if_pos hpercent, brackets_afterNumber]
    · simp only [Reads, if_neg hpercent] at h
      obtain ⟨d, hread, -⟩ := h
      simp only [leaves, if_neg hpercent, brackets_literal? hread]
      rfl
  | hsl => exact brackets_afterNumber part

/-- No bracket is read. -/
theorem brackets_unread (h : f.ReadsAll arguments) :
    brackets (f.unread arguments) = brackets arguments.flatten := by
  obtain ⟨x, y, z, more, rfl, hx, hy, hz⟩ := h
  simp only [unread, List.flatten_cons, brackets_append, brackets_leaves hx, brackets_leaves hy,
    brackets_leaves hz, brackets_afterOpacity]

end Unread

/-! ### Reading the components -/

theorem isSome_leadingNumber? {α : Type} [Scalar α] (part : List Char) :
    (leadingNumber? part : Option α).isSome = true ↔ BeginsWithNumber part := by
  unfold leadingNumber? BeginsWithNumber
  cases hread : Decimal.leading? part with
  | none => simp
  | some found =>
    obtain ⟨d, rest⟩ := found
    by_cases hfinite : d.isFinite = true <;> simp [hfinite]

theorem exists_channel?_eq (part : List Char) :
    ∃ n? : Option Int, channel? (α := Float) part = .ok n? ∧ (n?.isSome = true ↔ rgb.Reads part) := by
  obtain ⟨n?, hn, -⟩ := channel?_eq part
  refine ⟨n?, hn, ?_⟩
  unfold channel? at hn
  by_cases hpercent : part.getLast? = some '%'
  · simp only [Reads, if_pos hpercent, ← isSome_leadingNumber? (α := Float)]
    rw [if_pos (beq_iff_eq.mpr hpercent)] at hn
    split at hn
    · rename_i percent hread
      cases hnearest : Scalar.nearest (Scalar.clamp percent 0 100 / 100 * 255) with
      | error e =>
        rw [hnearest] at hn
        cases hn
      | ok n =>
        rw [hnearest] at hn
        cases hn
        simp [hread]
    · rename_i hread
      cases hn
      simp [hread]
  · simp only [Reads, if_neg hpercent, IsLiteral]
    rw [if_neg (by simpa using hpercent)] at hn
    split at hn
    · rename_i d hread
      split at hn
      · rename_i hfinite
        obtain ⟨n, -, hn⟩ := bind_eq_ok.mp hn
        cases hn
        simp [hread, hfinite]
      · rename_i hfinite
        cases hn
        simp [hread, hfinite]
    · rename_i hread
      cases hn
      simp [hread]

theorem exists_ofRgbCall_iff {text body : List Char} :
    (∃ c : Color Float, ofRgbCall text body = .ok (some c)) ↔ rgb.ReadsAll (pieces isSeparator body) := by
  unfold ofRgbCall
  dsimp only
  split
  · rename_i r g b more hpieces
    obtain ⟨red?, hred, hr⟩ := exists_channel?_eq r
    obtain ⟨green?, hgreen, hg⟩ := exists_channel?_eq g
    obtain ⟨blue?, hblue, hb⟩ := exists_channel?_eq b
    rw [hpieces, readsAll_cons, ← hr, ← hg, ← hb, hred, hgreen, hblue]
    constructor
    · rintro ⟨c, hc⟩
      cases red? <;> cases green? <;> cases blue? <;> first | exact ⟨rfl, rfl, rfl⟩ | cases hc
    · simp only [Option.isSome_iff_exists]
      rintro ⟨⟨red, rfl⟩, ⟨green, rfl⟩, ⟨blue, rfl⟩⟩
      exact ⟨_, rfl⟩
  · rename_i hfew
    refine iff_of_false (by rintro ⟨c, hc⟩; cases hc) ?_
    rintro ⟨x, y, z, more, hpieces, -⟩
    exact hfew x y z more hpieces

theorem exists_ofHslCall_iff {text body : List Char} :
    (∃ c : Color Float, ofHslCall text body = .ok (some c)) ↔ hsl.ReadsAll (pieces isSeparator body) := by
  unfold ofHslCall
  dsimp only
  split
  · rename_i h s l more hpieces
    rw [hpieces, readsAll_cons]
    simp only [Reads, ← isSome_leadingNumber? (α := Float)]
    split
    · rename_i hue saturation lightness hh hs hl
      obtain ⟨r, g, b, hchannels, -⟩ := @Hsl.channels_clamped ⟨hue, saturation, lightness⟩
        (isNumber_leadingNumber? hh) (isNumber_leadingNumber? hs) (isNumber_leadingNumber? hl)
      rw [ofHsl, hchannels, hh, hs, hl]
      exact iff_of_true ⟨_, rfl⟩ ⟨rfl, rfl, rfl⟩
    · rename_i hnone
      refine iff_of_false (by rintro ⟨c, hc⟩; cases hc) ?_
      simp only [Option.isSome_iff_exists]
      rintro ⟨⟨hue, hh⟩, ⟨saturation, hs⟩, ⟨lightness, hl⟩⟩
      exact hnone hue saturation lightness hh hs hl
  · rename_i hfew
    refine iff_of_false (by rintro ⟨c, hc⟩; cases hc) ?_
    rintro ⟨x, y, z, more, hpieces, -⟩
    exact hfew x y z more hpieces

theorem exists_ofCall_iff {f : Function} {text body : List Char} :
    (∃ c : Color Float, f.ofCall text body = .ok (some c)) ↔ f.ReadsAll (pieces isSeparator body) := by
  cases f with
  | rgb => exact exists_ofRgbCall_iff
  | hsl => exact exists_ofHslCall_iff

/-! ### Calls -/

/-- Whether a text begins with the name of a function, in whatever spelling, and an opening bracket. -/
def Opens (f : Function) (text rest : List Char) : Prop :=
  ∃ name mark, text = name ++ (mark ++ '(' :: rest) ∧
    List.Forall₂ (fun letter c => isSpellingOf letter c = true) f.letters name ∧
    (mark = [] ∨ ∃ a, mark = [a] ∧ isSpellingOf 'a' a = true)

section Opens

variable {f : Function} {text rest : List Char}

theorem afterFolded?_append {letters name : List Char}
    (hname : List.Forall₂ (fun letter c => isSpellingOf letter c = true) letters name) :
    afterFolded? letters (name ++ rest) = some rest := by
  induction hname with
  | nil => rfl
  | cons hc _ ih => exact (if_pos hc).trans ih

/-- A call is closed by the last character of its text. -/
theorem Opens.callBody?_eq_some_iff (h : f.Opens text rest) {body : List Char} :
    callBody? f.letters text = some body ↔ rest = body ++ [')'] := by
  have hbody : callBody? f.letters text =
      if rest.getLast? == some ')' then some rest.dropLast else none := by
    obtain ⟨name, mark, rfl, hname, hmark⟩ := h
    rw [callBody?, afterFolded?_append hname]
    rcases hmark with rfl | ⟨a, rfl, ha⟩
    · have hbracket : isSpellingOf 'a' '(' = false := by decide
      simp [hbracket]
    · simp [ha]
  rw [hbody]
  constructor
  · intro hsome
    split at hsome
    · rename_i hlast
      cases hsome
      exact (List.dropLast_append_getLast? _ (beq_iff_eq.mp hlast)).symm
    · cases hsome
  · rintro rfl
    simp

theorem Opens.exists_head (h : f.Opens text rest) :
    ∃ c tail, text = c :: tail ∧ f.initial = if c.isDigit then '0' else c.toLower := by
  obtain ⟨name, mark, rfl, hname, -⟩ := h
  cases f <;> cases hname with
  | @cons _ c _ name hc _ =>
    exact ⟨c, name ++ (mark ++ '(' :: rest), rfl, Format.opening_eq (by decide) hc⟩

theorem Opens.function_unique {g : Function} {rest' : List Char} (h : f.Opens text rest)
    (h' : g.Opens text rest') : f = g := by
  obtain ⟨c, tail, rfl, hinitial⟩ := h.exists_head
  obtain ⟨c', tail', heq, hinitial'⟩ := h'.exists_head
  obtain ⟨rfl, rfl⟩ := List.cons.inj heq
  have hsame := hinitial.trans hinitial'.symm
  cases f <;> cases g <;> first | rfl | exact absurd hsame (by decide)

theorem Opens.callBody?_eq_none {g : Function} (h : f.Opens text rest) (hg : f ≠ g) :
    callBody? g.letters text = none := by
  cases hbody : callBody? g.letters text with
  | none => rfl
  | some body =>
    have hopens : g.Opens text (body ++ [')']) := isCall_of_callBody? hbody
    exact absurd (h.function_unique hopens) hg

theorem Opens.ofCompact_eq {α : Type} [Scalar α] (h : f.Opens text rest) :
    ofCompact (α := α) text = .ok none := by
  unfold ofCompact
  split
  · rename_i hread
    obtain ⟨c, tail, heq, hdigit⟩ := (isTriple_of_read? hread).exists_head
    obtain ⟨c', tail', heq', hinitial⟩ := h.exists_head
    obtain ⟨rfl, rfl⟩ := List.cons.inj (heq.symm.trans heq')
    rw [if_pos hdigit] at hinitial
    cases f <;> exact absurd hinitial (by decide)
  · rfl

/-- No text that begins like a call is anything else. -/
theorem Opens.ofTrimmed_eq {α : Type} [Scalar α] (h : f.Opens text rest) :
    ofTrimmed (α := α) text = match callBody? f.letters text with
      | some body => f.ofCall text body
      | none => .ok none := by
  unfold ofTrimmed
  split
  · obtain ⟨c, tail, heq, hinitial⟩ := h.exists_head
    obtain ⟨rfl, rfl⟩ := List.cons.inj heq
    cases f <;> exact absurd hinitial (by decide)
  · cases f with
    | rgb =>
      have hother : callBody? ['h', 's', 'l'] text = none := h.callBody?_eq_none (g := hsl) (by decide)
      rw [hother, h.ofCompact_eq]
      rfl
    | hsl =>
      have hother : callBody? ['r', 'g', 'b'] text = none := h.callBody?_eq_none (g := rgb) (by decide)
      rw [hother, h.ofCompact_eq]
      rfl

end Opens

/-- A text that begins like a call of a function is a colour exactly if a bracket closes it and the first
three arguments can be read. The brackets inside it are then those in what has not been read: there is
one call and nothing else in the text exactly if there are none in that. -/
theorem exists_color_iff {f : Function} {cs rest : List Char} (h : f.Opens (trim cs) rest) :
    ((∃ c : Color Float, ofChars? cs = some c) ↔
        ∃ body, rest = body ++ [')'] ∧ f.ReadsAll (pieces isSeparator body)) ∧
      ∀ c : Color Float, ofChars? cs = some c → ∃ body, rest = body ++ [')'] ∧
        brackets body = brackets (f.unread (pieces isSeparator body)) := by
  have hread (c : Color Float) : ofChars? cs = some c ↔
      ∃ body, callBody? f.letters (trim cs) = some body ∧ f.ofCall (trim cs) body = .ok (some c) := by
    have hattempt := attempt_eq cs
    rw [attempt, h.ofTrimmed_eq] at hattempt
    cases hbody : callBody? f.letters (trim cs) with
    | none =>
      rw [hbody] at hattempt
      simp [← Except.ok.inj hattempt]
    | some body =>
      rw [hbody] at hattempt
      simp [hattempt]
  have hiff : (∃ c : Color Float, ofChars? cs = some c) ↔
      ∃ body, rest = body ++ [')'] ∧ f.ReadsAll (pieces isSeparator body) := by
    simp only [hread, h.callBody?_eq_some_iff, ← @exists_ofCall_iff f (trim cs)]
    rw [exists_comm]
    simp only [exists_and_left]
  refine ⟨hiff, fun c hc => ?_⟩
  obtain ⟨body, hrest, hreads⟩ := hiff.mp ⟨c, hc⟩
  exact ⟨body, hrest, by rw [brackets_unread hreads, brackets_pieces]⟩

theorem exists_color_iff_remark :
    let cs := " RGBA(10 20% 30 / 0.5 remark) ".toList
    let rest := "10 20% 30 / 0.5 remark)".toList
    rgb.Opens (trim cs) rest ∧
      ∃ body, rest = body ++ [')'] ∧ rgb.ReadsAll (pieces isSeparator body) ∧
        brackets body = brackets (rgb.unread (pieces isSeparator body)) := by
  intro cs rest
  have hopens : rgb.Opens (trim cs) rest := by
    refine ⟨"RGB".toList, ['A'], by decide +kernel, ?_, .inr ⟨'A', rfl, by decide⟩⟩
    exact .cons (by decide) (.cons (by decide) (.cons (by decide) .nil))
  have hcolor : (ofChars? cs : Option (Color Float)).isSome = true := by decide +kernel
  obtain ⟨c, hc⟩ := Option.isSome_iff_exists.mp hcolor
  obtain ⟨hiff, hbrackets⟩ := exists_color_iff hopens
  obtain ⟨body, hrest, hreads⟩ := hiff.mp ⟨c, hc⟩
  obtain ⟨body', hrest', heq⟩ := hbrackets c hc
  obtain rfl := List.append_cancel_right (hrest.symm.trans hrest')
  exact ⟨hopens, body, hrest, hreads, heq⟩

/-- A text of two calls. The number of the third argument of the first is read, and the second is in what
is left. -/
theorem isSome_ofText?_of_twoCalls :
    let text := "hsl(0 0% 0%) hsl(0 0% 100%)"
    let body := "0 0% 0%) hsl(0 0% 100%".toList
    hsl.Opens (trim text.toList) (body ++ [')']) ∧ brackets body = [')', '('] ∧
      (ofText? text : Option (Color Float)).isSome = true := by
  intro text body
  refine ⟨⟨"hsl".toList, [], by decide +kernel, ?_, .inl rfl⟩, by decide +kernel, by decide +kernel⟩
  exact .cons (by decide) (.cons (by decide) (.cons (by decide) .nil))

end Function

end Color

end Swatch
