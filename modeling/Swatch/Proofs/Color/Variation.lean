import Swatch.Proofs.Color.Call
import Swatch.Proofs.Number.Casing
import Swatch.Proofs.Text.Joining

/-!
Calls of colour functions that differ in what separates their arguments, in what stands around them and
in the case of their letters. Main statement: they are the same colour or none of them is one, and the
format is the one with opacity exactly if the name, the number of arguments or a slash tells it.
-/

namespace Swatch

open Text

theorem isSeparator_toLower : ∀ c : Char, isSeparator c.toLower = isSeparator c :=
  apply_toLower isSeparator (by decide)

namespace Color

variable {α : Type} [Scalar α]

/-! ### Arguments in small letters -/

section Arguments

theorem leadingNumber?_small (part : List Char) :
    (leadingNumber? (small part) : Option α) = leadingNumber? part := by
  rw [leadingNumber?, Decimal.leading?_small, leadingNumber?]
  cases Decimal.leading? part <;> rfl

/-- A sign at the end of a text is there in small letters. -/
theorem getLast?_small (part : List Char) :
    ((small part).getLast? == some '%') = (part.getLast? == some '%') := by
  rw [small, List.getLast?_map]
  cases part.getLast? with
  | none => rfl
  | some c => exact beq_toLower '%' (by decide) c

theorem opacity_small (part : Option (List Char)) : (opacity (part.map small) : α) = opacity part := by
  cases part with
  | none => rfl
  | some cs => rw [Option.map_some, opacity, trim_small, leadingNumber?_small, getLast?_small, opacity]

theorem channel?_small (part : List Char) : channel? (α := α) (small part) = channel? (α := α) part := by
  rw [channel?, getLast?_small, leadingNumber?_small, Decimal.literal?_small, channel?]

end Arguments

/-- What a colour shows, whatever formats it is offered in. -/
def shown (c : Color α) : α × α × α × α :=
  (c.red, c.green, c.blue, c.alpha)

/-- A colour as it would be offered if it was written in a format. -/
def writtenAs (f : Format) (c : Color α) : Color α :=
  { c with formats := f.priority }

namespace Function

/-- The format of a call, by whether it tells an opacity. -/
def format : Function → (tellsOpacity : Bool) → Format
  | rgb, false => .rgb
  | rgb, true => .rgba
  | hsl, false => .hsl
  | hsl, true => .hsla

def fullName : Function → String
  | rgb => "rgba"
  | hsl => "hsla"

/-- Arguments that are the same in small letters are as many. -/
theorem exists_of_map_small_eq {x y z : List Char} {more arguments : List (List Char)}
    (h : arguments.map small = (x :: y :: z :: more).map small) :
    ∃ x' y' z' more', arguments = x' :: y' :: z' :: more' ∧ small x' = small x ∧ small y' = small y ∧
      small z' = small z ∧ more'.map small = more.map small := by
  obtain ⟨x', rest, rfl, hx, h⟩ := List.map_eq_cons_iff.mp h
  obtain ⟨y', rest, rfl, hy, h⟩ := List.map_eq_cons_iff.mp h
  obtain ⟨z', more', rfl, hz, h⟩ := List.map_eq_cons_iff.mp h
  exact ⟨x', y', z', more', rfl, hx, hy, hz, h⟩

theorem opacity_head?_congr {more more' : List (List Char)} (h : more'.map small = more.map small) :
    (opacity more'.head? : α) = opacity more.head? := by
  rw [← opacity_small more'.head?, ← opacity_small more.head?, ← List.head?_map, ← List.head?_map, h]

theorem channel?_congr {part part' : List Char} (h : small part' = small part) :
    channel? (α := α) part' = channel? (α := α) part := by
  rw [← channel?_small part', h, channel?_small]

theorem leadingNumber?_congr {part part' : List Char} (h : small part' = small part) :
    (leadingNumber? part' : Option α) = leadingNumber? part := by
  rw [← leadingNumber?_small part', h, leadingNumber?_small]

theorem ofRgbCall_congr {text body text' body' : List Char}
    (h : (pieces isSeparator body').map small = (pieces isSeparator body).map small) :
    ofRgbCall (α := α) text' body' =
      (·.map (writtenAs (rgb.format (hasAlpha "rgba" text' (pieces isSeparator body'))))) <$>
        ofRgbCall text body := by
  unfold ofRgbCall
  dsimp only
  generalize pieces isSeparator body = arguments at h ⊢
  generalize pieces isSeparator body' = arguments' at h ⊢
  split
  · rename_i r' g' b' more'
    obtain ⟨r, g, b, more, rfl, hr, hg, hb, hmore⟩ := exists_of_map_small_eq h.symm
    simp only [← channel?_congr hr, ← channel?_congr hg, ← channel?_congr hb, ← opacity_head?_congr hmore]
    cases channel? (α := α) r with
    | error e => rfl
    | ok red? =>
      cases channel? (α := α) g with
      | error e => rfl
      | ok green? =>
        cases channel? (α := α) b with
        | error e => rfl
        | ok blue? =>
          cases hasAlpha "rgba" text' (r' :: g' :: b' :: more') <;>
            cases red? <;> cases green? <;> cases blue? <;> rfl
  · rename_i hfew
    split
    · obtain ⟨r', g', b', more', rfl, -⟩ := exists_of_map_small_eq h
      exact absurd rfl (hfew r' g' b' more')
    · rfl

theorem ofHslCall_congr {text body text' body' : List Char}
    (h : (pieces isSeparator body').map small = (pieces isSeparator body).map small) :
    ofHslCall (α := α) text' body' =
      (·.map (writtenAs (hsl.format (hasAlpha "hsla" text' (pieces isSeparator body'))))) <$>
        ofHslCall text body := by
  unfold ofHslCall
  dsimp only
  generalize pieces isSeparator body = arguments at h ⊢
  generalize pieces isSeparator body' = arguments' at h ⊢
  split
  · rename_i x' y' z' more'
    obtain ⟨x, y, z, more, rfl, hx, hy, hz, hmore⟩ := exists_of_map_small_eq h.symm
    simp only [← leadingNumber?_congr hx, ← leadingNumber?_congr hy, ← leadingNumber?_congr hz,
      ← opacity_head?_congr hmore]
    cases (leadingNumber? x : Option α) with
    | none => rfl
    | some hue =>
      cases (leadingNumber? y : Option α) with
      | none => rfl
      | some saturation =>
        cases (leadingNumber? z : Option α) with
        | none => rfl
        | some lightness =>
          cases hasAlpha "hsla" text' (x' :: y' :: z' :: more') <;>
            simp only [ofHsl] <;> cases (Hsl.clamped ⟨hue, saturation, lightness⟩).channels <;> rfl
  · rename_i hfew
    split
    · obtain ⟨x', y', z', more', rfl, -⟩ := exists_of_map_small_eq h
      exact absurd rfl (hfew x' y' z' more')
    · rfl

/-- A call depends on its arguments in small letters, and apart from the format on nothing else. -/
theorem ofCall_congr (f : Function) {text body text' body' : List Char}
    (h : (pieces isSeparator body').map small = (pieces isSeparator body).map small) :
    f.ofCall (α := α) text' body' =
      (·.map (writtenAs (f.format (hasAlpha f.fullName text' (pieces isSeparator body'))))) <$>
        f.ofCall text body := by
  cases f with
  | rgb => exact ofRgbCall_congr h
  | hsl => exact ofHslCall_congr h

/-! ### Spellings of a call -/

/-- A call as a whole text: white space around it, its name in letters of either case, with an `a` at the
end if it is marked, and its arguments joined by separators. -/
def IsCallWith (f : Function) (marked : Bool) (arguments : List (List Char)) (text : List Char) : Prop :=
  ∃ before name body after, text = before ++ (name ++ '(' :: (body ++ ')' :: after)) ∧
    (∀ c ∈ before ++ after, isBlank c = true) ∧
    small name = f.letters ++ (if marked then ['a'] else []) ∧ Joins isSeparator arguments body

section Calls

variable {f : Function} {marked : Bool} {arguments : List (List Char)} {text : List Char}

theorem isSpellingOf_of_toLower {letter c : Char} (hc : c.toLower = letter) :
    isSpellingOf letter c = true := by
  simp [isSpellingOf, hc]

theorem opens_of_small {name rest : List Char}
    (hname : small name = f.letters ++ (if marked then ['a'] else [])) :
    f.Opens (name ++ '(' :: rest) rest := by
  obtain ⟨letters, mark, rfl, hletters, hmark⟩ := List.map_eq_append_iff.mp hname
  refine ⟨letters, mark, List.append_assoc _ _ _, ?_, ?_⟩
  · rw [← hletters, List.forall₂_map_left_iff]
    exact List.forall₂_same.mpr fun c _ => isSpellingOf_of_toLower rfl
  · cases marked with
    | false => exact .inl (List.map_eq_nil_iff.mp hmark)
    | true =>
      obtain ⟨a, rest, rfl, ha, hrest⟩ := List.map_eq_cons_iff.mp hmark
      obtain rfl := List.map_eq_nil_iff.mp hrest
      exact .inr ⟨a, rfl, isSpellingOf_of_toLower ha⟩

/-- A call is marked exactly if the name with opacity is what it begins with. -/
theorem beq_fullName {name rest : List Char}
    (hname : small name = f.letters ++ (if marked then ['a'] else [])) :
    (((name ++ '(' :: rest).take 4).map Char.toLower == f.fullName.toList) = marked := by
  rw [List.map_take, List.map_append]
  change ((small name ++ '(' :: small rest).take 4 == _) = _
  rw [hname]
  cases f <;> cases marked <;> rfl

theorem isBlank_head_of_small {name rest : List Char}
    (hname : small name = f.letters ++ (if marked then ['a'] else [])) :
    ∀ c ∈ (name ++ rest).head?, isBlank c = false := by
  have hletter : (small name).head? = some f.initial := by
    rw [hname]
    cases f <;> rfl
  have hinitial : isBlank f.initial = false := by cases f <;> decide
  cases name with
  | nil => cases hletter
  | cons c name =>
    rintro d hd
    cases hd
    rw [← isBlank_toLower, Option.some.inj hletter, hinitial]

/-- A call is read as one, whatever stands around it. -/
theorem IsCallWith.attempt_eq (h : f.IsCallWith marked arguments text) :
    ∃ call body, attempt (α := α) text = f.ofCall call body ∧ pieces isSeparator body = arguments ∧
      hasAlpha f.fullName call arguments =
        (marked || decide (3 < arguments.length) || text.contains '/') := by
  obtain ⟨before, name, body, after, rfl, hblank, hname, hbody⟩ := h
  have hbefore : ∀ c ∈ before, isBlank c = true := fun c hc => hblank c (List.mem_append_left _ hc)
  have hafter : ∀ c ∈ after, isBlank c = true := fun c hc => hblank c (List.mem_append_right _ hc)
  have hopens : f.Opens (name ++ '(' :: (body ++ [')'])) (body ++ [')']) := opens_of_small hname
  have htrim : trim (before ++ (name ++ '(' :: (body ++ ')' :: after))) =
      name ++ '(' :: (body ++ [')']) := by
    have hsplit : name ++ '(' :: (body ++ ')' :: after) = name ++ '(' :: (body ++ [')']) ++ after := by simp
    rw [trim_blanks_append hbefore, hsplit, trim_append_blanks hafter]
    refine trim_eq_self (isBlank_head_of_small hname) fun c hc => ?_
    have hclosed : name ++ '(' :: (body ++ [')']) = name ++ '(' :: body ++ [')'] := by simp
    rw [hclosed, List.getLast?_concat] at hc
    cases hc
    decide
  have hslash : (name ++ '(' :: (body ++ [')'])).contains '/' =
      (before ++ (name ++ '(' :: (body ++ ')' :: after))).contains '/' := by
    rw [Bool.eq_iff_iff, List.contains_iff_mem, List.contains_iff_mem, ← htrim, mem_trim_iff (by decide)]
  refine ⟨name ++ '(' :: (body ++ [')']), body, ?_, hbody.pieces_eq, ?_⟩
  · rw [attempt, htrim, hopens.ofTrimmed_eq, hopens.callBody?_eq_some_iff.mpr rfl]
  · rw [hasAlpha, beq_fullName hname, hslash]

section Case

variable {g : Char → Char} (hg : ∀ c, (g c).toLower = c.toLower)

include hg

/-- What tells no case is kept where characters are changed in their case only. -/
theorem apply_eq_of_toLower {β : Type} {p : Char → β} (hp : ∀ c : Char, p c.toLower = p c) (c : Char) :
    p (g c) = p c := by
  rw [← hp (g c), hg, hp]

theorem beq_eq_of_toLower (d : Char) (hd : (small capitals).map (· == d) = capitals.map (· == d)) (c : Char) :
    (g c == d) = (c == d) :=
  apply_eq_of_toLower hg (p := (· == d)) (beq_toLower d hd) c

theorem eq_self_of_toLower {d : Char} (hd : (small capitals).map (· == d) = capitals.map (· == d)) : g d = d := by
  rw [← beq_iff_eq, beq_eq_of_toLower hg d hd, beq_self_eq_true]

/-- A call stays a call where its characters are changed in their case only. -/
theorem IsCallWith.map (h : f.IsCallWith marked arguments text) :
    f.IsCallWith marked (arguments.map (·.map g)) (text.map g) := by
  obtain ⟨before, name, body, after, rfl, hblank, hname, hbody⟩ := h
  refine ⟨before.map g, name.map g, body.map g, after.map g, ?_, ?_, ?_,
    hbody.map (apply_eq_of_toLower hg isSeparator_toLower)⟩
  · simp only [List.map_append, List.map_cons, @eq_self_of_toLower g hg '(' (by decide),
      @eq_self_of_toLower g hg ')' (by decide)]
  · rw [← List.map_append]
    exact List.forall_mem_map.mpr fun c hc => (apply_eq_of_toLower hg isBlank_toLower c).trans (hblank c hc)
  · rw [← hname, small, small, List.map_map]
    exact List.map_congr_left fun c _ => hg c

theorem contains_map (text : List Char) : (text.map g).contains '/' = text.contains '/' := by
  have hslash : (small capitals).map (· == '/') = capitals.map (· == '/') := by decide
  rw [Bool.eq_iff_iff, List.contains_iff_mem, List.contains_iff_mem, List.mem_map]
  constructor
  · rintro ⟨c, hc, heq⟩
    rw [← beq_iff_eq, beq_eq_of_toLower hg '/' hslash, beq_iff_eq] at heq
    exact heq ▸ hc
  · exact fun hc => ⟨'/', hc, eq_self_of_toLower hg hslash⟩

end Case

/-- All characters of a call are of ASCII or white space if those of its arguments are. -/
theorem IsCallWith.isPlain (h : f.IsCallWith marked arguments text)
    (hascii : ∀ part ∈ arguments, ∀ c ∈ part, c.toNat < 128) : ∀ c ∈ text, IsPlain c := by
  have hletters : ∀ c ∈ f.letters ++ (if marked then ['a'] else []), c.toNat < 128 := by
    cases f <;> cases marked <;> simp [letters]
  obtain ⟨before, name, body, after, rfl, hblank, hname, hbody⟩ := h
  have hnamed : ∀ c ∈ name, IsPlain c := fun c hc =>
    .inl (lt_of_toLower_lt (hletters c.toLower (hname ▸ List.mem_map_of_mem hc)))
  have hinside : ∀ c ∈ body, IsPlain c := by
    intro c hc
    rcases hbody.mem hc with hsep | ⟨part, hpart, hc⟩
    · simp only [isSeparator, Bool.or_eq_true, beq_iff_eq] at hsep
      rcases hsep with (hsep | rfl) | rfl
      · exact .inr hsep
      · exact .inl (by decide)
      · exact .inl (by decide)
    · exact .inl (hascii part hpart c hc)
  intro c hc
  simp only [List.mem_append, List.mem_cons] at hc hblank
  rcases hc with hc | hc | rfl | hc | rfl | hc
  · exact .inr (hblank c (.inl hc))
  · exact hnamed c hc
  · exact .inl (by decide)
  · exact hinside c hc
  · exact .inl (by decide)
  · exact .inr (hblank c (.inr hc))

end Calls

/-- The format of a call, by what is in its text. -/
def formatIn (f : Function) (marked : Bool) (arguments : List (List Char)) (text : List Char) : Format :=
  f.format (marked || decide (3 < arguments.length) || text.contains '/')

section Main

variable {f : Function} {marked : Bool} {arguments : List (List Char)} {s t : String}

/-- Two calls whose arguments are the same in small letters are the same colour, apart from the format. -/
theorem ofText?_congr {marked' : Bool} {arguments' : List (List Char)}
    (hs : f.IsCallWith marked arguments s.toList) (ht : f.IsCallWith marked' arguments' t.toList)
    (harguments : arguments'.map small = arguments.map small) :
    (ofText? t : Option (Color α)) =
      (ofText? s).map (writtenAs (f.formatIn marked' arguments' t.toList)) := by
  obtain ⟨call, body, hattempt, rfl, -⟩ := hs.attempt_eq (α := α)
  obtain ⟨call', body', hattempt', rfl, halpha⟩ := ht.attempt_eq (α := α)
  rw [ofText?, ofText?, ofChars?, ofChars?, hattempt, hattempt', f.ofCall_congr harguments, halpha]
  cases f.ofCall (α := α) call body <;> rfl

/-- What separates the arguments of a call, the white space around it and the case of its letters do not
matter to the colour that it is; its name, its number of arguments and a slash tell its format. -/
theorem ofText?_of_isCallWith (hascii : ∀ part ∈ arguments, ∀ c ∈ part, c.toNat < 128)
    (hs : f.IsCallWith marked arguments s.toList) :
    (∀ marked' t, f.IsCallWith marked' arguments t.toList →
        (ofText? t : Option (Color α)).map shown = (ofText? s).map shown) ∧
      (ofText? (upper s) : Option (Color α)) = ofText? s ∧
      (ofText? (lower s) : Option (Color α)) = ofText? s ∧
      ∀ c : Color α, ofText? s = some c → c.written = f.formatIn marked arguments s.toList := by
  have hself := ofText?_congr (α := α) hs hs rfl
  have hcase {g : Char → Char} (hg : ∀ c, (g c).toLower = c.toLower) {t : String}
      (ht : t.toList = s.toList.map g) : (ofText? t : Option (Color α)) = ofText? s := by
    have hcall := hs.map hg
    rw [← ht] at hcall
    have hsmall : (arguments.map (·.map g)).map small = arguments.map small := by
      rw [List.map_map]
      exact List.map_congr_left fun part _ => by simp [small, hg]
    have hformat : f.formatIn marked (arguments.map (·.map g)) t.toList =
        f.formatIn marked arguments s.toList := by
      rw [formatIn, ht, contains_map hg, List.length_map, formatIn]
    rw [ofText?_congr hs hcall hsmall, hformat, ← hself]
  refine ⟨fun marked' t ht => ?_, hcase toLower_toUpper (toList_upper (hs.isPlain hascii)),
    hcase toLower_toLower (toList_lower (hs.isPlain hascii)), fun c hc => ?_⟩
  · rw [ofText?_congr hs ht rfl, Option.map_map]
    rfl
  · rw [hc] at hself
    exact congrArg written (Option.some.inj hself)

theorem ofText?_of_isCallWith_slashes :
    let s := "RGB(10%,20 30/.5)"
    let t := " rgba( 10% / 20\t30 , .5 ) "
    let arguments := ["10%".toList, "20".toList, "30".toList, ".5".toList]
    (∀ part ∈ arguments, ∀ c ∈ part, c.toNat < 128) ∧ rgb.IsCallWith false arguments s.toList ∧
      rgb.IsCallWith true arguments t.toList ∧ (ofText? s : Option (Color Float)).isSome = true ∧
      (ofText? t : Option (Color Float)).map shown = (ofText? s).map shown ∧
      (ofText? (upper s) : Option (Color Float)) = ofText? s ∧
      (ofText? (lower s) : Option (Color Float)) = ofText? s ∧
      ∀ c : Color Float, ofText? s = some c → c.written = .rgba := by
  intro s t arguments
  have hascii : ∀ part ∈ arguments, ∀ c ∈ part, c.toNat < 128 := by simp [arguments]
  have hs : rgb.IsCallWith false arguments s.toList :=
    ⟨[], "RGB".toList, "10%,20 30/.5".toList, [], by decide +kernel, by simp, by decide +kernel,
      pieces_eq_iff.mp (by decide +kernel)⟩
  have ht : rgb.IsCallWith true arguments t.toList :=
    ⟨[' '], "rgba".toList, " 10% / 20\t30 , .5 ".toList, [' '], by decide +kernel, by simp [isBlank],
      by decide +kernel, pieces_eq_iff.mp (by decide +kernel)⟩
  obtain ⟨hsame, hupper, hlower, hwritten⟩ := ofText?_of_isCallWith (α := Float) hascii hs
  exact ⟨hascii, hs, ht, by decide +kernel, hsame true t ht, hupper, hlower, hwritten⟩

end Main

end Function

end Color

end Swatch
