import Mathlib.Data.List.Flatten
import Mathlib.Data.List.Infix
import Mathlib.Data.List.TakeWhile
import Swatch.Proofs.Text.Trimming
import Swatch.Stylesheet.Reference

/-!
Values by their parts. A reference is read exactly where one of its spellings begins, and a value is
its parts one after the other. Main statement: a value that is put together from parts has these very
parts, if no character between the references is a hyphen; for then no reference comes about where two
parts meet.
-/

namespace Swatch

open Text

namespace Reference

/-- How a reference to a name may be written: with white space around the name, or without. -/
inductive Spells : List Char → List Char → Prop where
  | intro {before taken after : List Char} (hbefore : ∀ c ∈ before, isBlank c = true)
      (hne : taken ≠ []) (htaken : ∀ c ∈ taken, isName c = true)
      (hafter : ∀ c ∈ after, isBlank c = true) :
      Spells ('-' :: '-' :: taken)
        ('v' :: 'a' :: 'r' :: '(' :: (before ++ '-' :: '-' :: (taken ++ (after ++ [')']))))

variable {name spelling rest : List Char}

theorem Spells.read? (hs : Spells name spelling) (before : Option Char) (rest : List Char) :
    read? before (spelling ++ rest) = some (name, rest) := by
  obtain @⟨blanks, taken, blanks', hblanks, hne, htaken, hblanks'⟩ := hs
  have hopen : trimStart (blanks ++ '-' :: '-' :: (taken ++ (blanks' ++ ')' :: rest))) =
      '-' :: '-' :: (taken ++ (blanks' ++ ')' :: rest)) :=
    trimStart_append hblanks (by simp; decide)
  have hend : ∀ c ∈ (blanks' ++ ')' :: rest).head?, isName c = false := by
    intro c hc
    cases blanks' with
    | nil =>
      cases hc
      decide
    | cons d blanks' =>
      cases hc
      exact isName_of_isBlank (hblanks' c List.mem_cons_self)
  have hname : CustomProperty.name? ('-' :: '-' :: (taken ++ (blanks' ++ ')' :: rest))) =
      some ('-' :: '-' :: taken, blanks' ++ ')' :: rest) := by
    rw [CustomProperty.name?, run?_append hne htaken hend]
    rfl
  have hclose : trimStart (blanks' ++ ')' :: rest) = ')' :: rest :=
    trimStart_append hblanks' (by simp; decide)
  have hbody : body? (blanks ++ '-' :: '-' :: (taken ++ (blanks' ++ ')' :: rest))) =
      some ('-' :: '-' :: taken, rest) := by
    simp only [body?, hopen, hname, hclose]
  simpa [Reference.read?, after?, List.isPrefixOf?] using hbody

/-- A reference is read where a spelling of it begins. -/
theorem exists_spells_of_read? {before : Option Char} {cs : List Char}
    (h : read? before cs = some (name, rest)) : ∃ spelling, Spells name spelling ∧ cs = spelling ++ rest := by
  unfold read? at h
  split at h
  · rename_i opened hopened
    have hcs : "var(".toList ++ opened = cs := List.isPrefixOf?_eq_some_iff_append_eq.mp hopened
    unfold body? at h
    split at h
    · rename_i name' afterName hname
      split at h
      · rename_i after hclose
        cases h
        obtain ⟨blanks, hblanks, hopened'⟩ := exists_blanks_append opened
        obtain ⟨blanks', hblanks', hafterName⟩ := exists_blanks_append afterName
        unfold CustomProperty.name? at hname
        split at hname
        · rename_i named hhyphens
          obtain ⟨⟨taken, after'⟩, hrun, heq⟩ := Option.map_eq_some_iff.mp hname
          cases heq
          obtain ⟨hne, happend⟩ := run?_eq_append hrun
          refine ⟨_, .intro hblanks hne (forall_mem_of_run? hrun) hblanks', ?_⟩
          rw [← hcs, hopened', hhyphens, ← happend, hafterName, hclose]
          simp
        · cases hname
      · cases h
    · cases h
  · cases h

/-! ### The parts of a value -/

theorem Spells.exists_eq_cons (hs : Spells name spelling) : ∃ tail, spelling = 'v' :: tail := by
  obtain ⟨_, _, _, _⟩ := hs
  exact ⟨_, rfl⟩

theorem segmentsFrom_eq (skip : Nat) (cs : List Char) : segmentsFrom skip cs = segments (cs.drop skip) := by
  induction cs generalizing skip with
  | nil => cases skip <;> rfl
  | cons c cs ih =>
    cases skip with
    | zero => rfl
    | succ skip => exact ih skip

@[simp] theorem segments_nil : segments [] = [] :=
  rfl

theorem segments_cons {c : Char} (h : read? none (c :: rest) = none) :
    segments (c :: rest) = .literal c :: segments rest := by
  simp only [segments, segmentsFrom, h]

theorem segments_spelling (hs : Spells name spelling) (rest : List Char) :
    segments (spelling ++ rest) = .reference name spelling :: segments rest := by
  obtain ⟨tail, rfl⟩ := hs.exists_eq_cons
  have hread := hs.read? none rest
  have hlength : ('v' :: (tail ++ rest)).length - rest.length = tail.length + 1 := by
    simp only [List.length_cons, List.length_append]
    omega
  rw [List.cons_append] at hread ⊢
  rw [segments, segmentsFrom]
  simp only [hread, hlength, Nat.add_sub_cancel, segmentsFrom_eq, List.drop_left]
  rw [← List.cons_append, ← List.length_cons, List.take_left]

/-- A value is read part by part. -/
@[elab_as_elim]
theorem value_induction {P : List Char → Prop} (value : List Char) (nil : P [])
    (literal : ∀ c rest, read? none (c :: rest) = none → P rest → P (c :: rest))
    (reference : ∀ name spelling rest, Spells name spelling → P rest → P (spelling ++ rest)) :
    P value := by
  induction hlength : value.length using Nat.strongRecOn generalizing value with
  | _ n ih =>
    cases value with
    | nil => exact nil
    | cons c rest =>
      cases hread : read? none (c :: rest) with
      | none => exact literal c rest hread (ih _ (by simp [← hlength]) rest rfl)
      | some found =>
        obtain ⟨name, after⟩ := found
        obtain ⟨spelling, hs, hvalue⟩ := exists_spells_of_read? hread
        obtain ⟨tail, htail⟩ := hs.exists_eq_cons
        rw [hvalue]
        refine reference _ _ _ hs (ih _ ?_ _ rfl)
        rw [← hlength, hvalue, htail]
        simp only [List.cons_append, List.length_cons, List.length_append]
        omega

/-- A value is its parts, as they are written, one after the other. -/
theorem flatMap_text_segments (value : List Char) : (segments value).flatMap Segment.text = value := by
  induction value using value_induction with
  | nil => rfl
  | literal c rest hread ih => rw [segments_cons hread, List.flatMap_cons, ih]; rfl
  | reference name spelling rest hs ih => rw [segments_spelling hs, List.flatMap_cons, ih]; rfl

theorem spells_of_mem {value : List Char} (hmem : .reference name spelling ∈ segments value) :
    Spells name spelling := by
  induction value using value_induction with
  | nil => cases hmem
  | literal c rest hread ih =>
    rw [segments_cons hread] at hmem
    exact ih (List.mem_of_ne_of_mem (by simp) hmem)
  | reference name' spelling' rest hs ih =>
    rw [segments_spelling hs] at hmem
    rcases List.mem_cons.mp hmem with heq | hmem
    · cases heq
      exact hs
    · exact ih hmem

/-- The names that a value refers to. -/
def referred (value : List Char) : List String :=
  (segments value).filterMap fun
    | .literal _ => none
    | .reference name _ => some (String.ofList name)

/-- The characters of a value that belong to no reference. -/
def outside (value : List Char) : List Char :=
  (segments value).filterMap fun
    | .literal c => some c
    | .reference _ _ => none

theorem mem_referred_iff {value : List Char} {name : String} :
    name ∈ referred value ↔
      ∃ letters spelling, .reference letters spelling ∈ segments value ∧ String.ofList letters = name := by
  rw [referred, List.mem_filterMap]
  constructor
  · rintro ⟨segment, hmem, hname⟩
    cases segment with
    | literal c => cases hname
    | reference letters spelling => exact ⟨letters, spelling, hmem, Option.some.inj hname⟩
  · rintro ⟨letters, spelling, hmem, rfl⟩
    exact ⟨_, hmem, rfl⟩

theorem mem_outside_iff {value : List Char} {c : Char} : c ∈ outside value ↔ .literal c ∈ segments value := by
  rw [outside, List.mem_filterMap]
  constructor
  · rintro ⟨segment, hmem, hc⟩
    cases segment with
    | literal d => exact Option.some.inj hc ▸ hmem
    | reference letters spelling => cases hc
  · exact fun hmem => ⟨_, hmem, rfl⟩

/-! ### Values that are put together -/

/-- A part that can stand beside any other such part: a reference, or a character that is no hyphen. -/
def IsPart : Segment → Prop
  | .literal c => c ≠ '-'
  | .reference name spelling => Spells name spelling

theorem isPart_of_mem {value : List Char} (hvalue : '-' ∉ outside value) {segment : Segment}
    (hmem : segment ∈ segments value) : IsPart segment := by
  cases segment with
  | literal c =>
    rintro rfl
    exact hvalue (mem_outside_iff.mpr hmem)
  | reference name spelling => exact spells_of_mem hmem

/-- A hyphen belongs to a reference, so the letter that the reference begins with is before it. -/
theorem mem_of_hyphen {segments : List Segment} (hparts : ∀ segment ∈ segments, IsPart segment)
    {front : List Char} (happend : segments.flatMap Segment.text = front ++ '-' :: rest) : 'v' ∈ front := by
  induction segments generalizing front with
  | nil => simp at happend
  | cons segment segments ih =>
    have hsegment := hparts segment List.mem_cons_self
    have hrest := fun s hs => hparts s (List.mem_cons_of_mem segment hs)
    rw [List.flatMap_cons] at happend
    cases segment with
    | literal c =>
      cases front with
      | nil => exact absurd (List.cons.inj happend).1 hsegment
      | cons d front => exact List.mem_cons_of_mem d (ih hrest (List.cons.inj happend).2)
    | reference name spelling =>
      obtain ⟨tail, rfl⟩ := hsegment.exists_eq_cons
      cases front with
      | nil => exact absurd (List.cons.inj happend).1 (by decide)
      | cons d front => exact (List.cons.inj happend).1 ▸ List.mem_cons_self

/-- Parts that are put together are the parts of the whole. -/
theorem segments_flatMap_text {parts : List Segment} (hparts : ∀ segment ∈ parts, IsPart segment) :
    segments (parts.flatMap Segment.text) = parts := by
  induction parts with
  | nil => rfl
  | cons segment parts ih =>
    have hsegment := hparts segment List.mem_cons_self
    have hrest := fun s hs => hparts s (List.mem_cons_of_mem segment hs)
    rw [List.flatMap_cons]
    cases segment with
    | reference name spelling => rw [Segment.text, segments_spelling hsegment, ih hrest]
    | literal c =>
      rw [Segment.text, List.singleton_append, segments_cons, ih hrest]
      -- A reference that began with this character would have its hyphens in what follows.
      cases hread : read? none (c :: parts.flatMap Segment.text) with
      | none => rfl
      | some found =>
        obtain ⟨name, after⟩ := found
        obtain ⟨spelling, hs, hcs⟩ := exists_spells_of_read? hread
        obtain @⟨blanks, taken, blanks', hblanks, hne, htaken, hblanks'⟩ := hs
        have hfront : parts.flatMap Segment.text = ('a' :: 'r' :: '(' :: blanks) ++ '-' ::
            ('-' :: (taken ++ (blanks' ++ [')'])) ++ after) := by
          simpa using (List.cons.inj hcs).2
        have hv : 'v' ∈ blanks := by simpa using mem_of_hyphen hrest hfront
        exact absurd (hblanks 'v' hv) (by decide)

theorem segments_flatMap {α : Type} {xs : List α} {f : α → List Char}
    (hxs : ∀ x ∈ xs, '-' ∉ outside (f x)) :
    segments (xs.flatMap f) = xs.flatMap fun x => segments (f x) := by
  have hparts : ∀ segment ∈ xs.flatMap fun x => segments (f x), IsPart segment := by
    intro segment hmem
    obtain ⟨x, hx, hmem⟩ := List.mem_flatMap.mp hmem
    exact isPart_of_mem (hxs x hx) hmem
  calc segments (xs.flatMap f)
      = segments ((xs.flatMap fun x => segments (f x)).flatMap Segment.text) := by
        rw [List.flatMap_assoc]
        simp only [flatMap_text_segments]
    _ = _ := segments_flatMap_text hparts

theorem referred_flatMap {α : Type} {xs : List α} {f : α → List Char}
    (hxs : ∀ x ∈ xs, '-' ∉ outside (f x)) : referred (xs.flatMap f) = xs.flatMap fun x => referred (f x) := by
  rw [referred, segments_flatMap hxs, List.filterMap_flatMap]
  rfl

theorem outside_flatMap {α : Type} {xs : List α} {f : α → List Char}
    (hxs : ∀ x ∈ xs, '-' ∉ outside (f x)) : outside (xs.flatMap f) = xs.flatMap fun x => outside (f x) := by
  rw [outside, segments_flatMap hxs, List.filterMap_flatMap]
  rfl

/-! ### Texts without references -/

theorem referred_eq_nil_iff {cs : List Char} :
    referred cs = [] ↔ ∀ tail, tail <:+ cs → read? none tail = none := by
  induction cs using value_induction with
  | nil =>
    refine ⟨fun _ tail htail => ?_, fun _ => rfl⟩
    rw [List.suffix_nil.mp htail]
    rfl
  | literal c rest hread ih =>
    have hreferred : referred (c :: rest) = referred rest := by
      rw [referred, segments_cons hread]
      rfl
    simp only [hreferred, ih, List.suffix_cons_iff, forall_eq_or_imp, hread, true_and]
  | reference name spelling rest hs ih =>
    refine ⟨fun hnil => ?_, fun hnone => ?_⟩
    · rw [referred, segments_spelling hs] at hnil
      cases hnil
    · have hread := hnone _ List.suffix_rfl
      rw [hs.read?] at hread
      cases hread

/-- A piece of a text without references has none either. -/
theorem referred_eq_nil_of_infix {cs value : List Char} (hcs : referred cs = []) (hvalue : value <:+: cs) :
    referred value = [] := by
  obtain ⟨front, more, rfl⟩ := hvalue
  rw [referred_eq_nil_iff] at hcs ⊢
  rintro tail ⟨before, rfl⟩
  cases hread : read? none tail with
  | none => rfl
  | some found =>
    obtain ⟨name, after⟩ := found
    obtain ⟨spelling, hs, rfl⟩ := exists_spells_of_read? hread
    have hnone := hcs (spelling ++ (after ++ more)) ⟨front ++ before, by simp⟩
    rw [hs.read?] at hnone
    cases hnone

end Reference

end Swatch
