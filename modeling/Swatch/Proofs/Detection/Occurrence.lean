import Swatch.Proofs.Detection.Placement
import Swatch.Proofs.Document.Key
import Swatch.Proofs.Stylesheet.Segment

/-!
References that occur in a text. Main statements: wherever a reference is spelled in a text it is found,
for no two spellings overlap; and of the records of one range the first is kept.
-/

namespace Swatch

open Text

namespace Reference

variable {name name' spelling spelling' front rest : List Char}

theorem Spells.exists_eq_opening (hs : Spells name spelling) :
    ∃ inside, spelling = "var(".toList ++ (inside ++ [')']) ∧ '(' ∉ inside := by
  obtain @⟨blanks, taken, blanks', hblanks, -, htaken, hblanks'⟩ := hs
  refine ⟨blanks ++ '-' :: '-' :: (taken ++ blanks'), by simp, fun hmem => ?_⟩
  simp only [List.mem_append, List.mem_cons] at hmem
  rcases hmem with hmem | heq | heq | hmem | hmem
  · exact absurd (hblanks _ hmem) (by decide)
  · exact absurd heq (by decide)
  · exact absurd heq (by decide)
  · exact absurd (htaken _ hmem) (by decide)
  · exact absurd (hblanks' _ hmem) (by decide)

theorem Spells.ne_nil (hs : Spells name spelling) : spelling ≠ [] := by
  obtain ⟨inside, rfl, -⟩ := hs.exists_eq_opening
  simp

/-- No spelling begins inside another one, for it would bring a second opening parenthesis. -/
theorem Spells.not_begins_inside (hs : Spells name (front ++ rest)) (hfront : front ≠ [])
    (hrest : rest ≠ []) (hs' : Spells name' spelling') {more more' : List Char} :
    rest ++ more ≠ spelling' ++ more' := by
  intro heq
  obtain ⟨inside, hinside, hparen⟩ := hs.exists_eq_opening
  obtain ⟨inside', rfl, -⟩ := hs'.exists_eq_opening
  have hlast : rest.getLast? = some ')' := by
    have hwhole := congrArg List.getLast? hinside
    rwa [List.getLast?_append_of_ne_nil _ hrest, ← List.append_assoc, List.getLast?_concat] at hwhole
  -- The rest has the opening parenthesis, for up to it nothing closes.
  obtain ⟨tail, rfl⟩ : ∃ tail, rest = 'v' :: 'a' :: 'r' :: '(' :: tail := by
    rcases rest with _ | ⟨c, _ | ⟨d, _ | ⟨e, _ | ⟨f, tail⟩⟩⟩⟩ <;> simp_all
  rcases front with _ | ⟨c, _ | ⟨d, _ | ⟨e, _ | ⟨f, front⟩⟩⟩⟩
  · exact absurd rfl hfront
  all_goals simp at hinside
  obtain ⟨-, -, -, -, hinside⟩ := hinside
  have hmem : '(' ∈ inside ++ [')'] := by
    rw [← hinside]
    simp
  simp [hparen] at hmem

/-- A spelling that occurs behind the beginning of another one occurs behind its end. -/
theorem Spells.prefix_of_append_eq (hs : Spells name spelling) (hs' : Spells name' spelling')
    (hfront : front ≠ []) {more more' : List Char}
    (h : spelling ++ more = front ++ (spelling' ++ more')) :
    ∃ between, front = spelling ++ between ∧ more = between ++ (spelling' ++ more') := by
  rcases List.append_eq_append_iff.mp h with ⟨between, hbefore, hmore⟩ | ⟨inside, hspelling, hmore⟩
  · exact ⟨between, hbefore, hmore⟩
  · cases inside with
    | nil => exact ⟨[], by simpa using hspelling.symm, by simpa using hmore.symm⟩
    | cons c inside =>
      subst hspelling
      exact absurd hmore.symm (hs.not_begins_inside hfront (List.cons_ne_nil c inside) hs')

theorem read?_eq (before before' : Option Char) (cs : List Char) : read? before cs = read? before' cs :=
  rfl

end Reference

namespace Token

open Reference (Spells)

variable {letters spelling : List Char}

theorem reference?_append (hs : Spells letters spelling) (before : Option Char) (rest : List Char) :
    reference? before (spelling ++ rest) = some ((letters, spelling), rest) := by
  rw [reference?, hs.read? before rest]
  simp [between]

theorem mem_hitsFrom_reference (hs : Spells letters spelling) {text front back : List Char}
    (htext : text = front ++ (spelling ++ back)) (before : Option Char) (offset : Nat) :
    ⟨offset + front.length, offset + front.length + spelling.length, (letters, spelling)⟩ ∈
      hitsFrom reference? before offset 0 text := by
  induction text using Reference.value_induction generalizing before offset front with
  | nil => simp [hs.ne_nil] at htext
  | literal c rest hread ih =>
    cases front with
    | nil =>
      rw [htext, List.nil_append, hs.read?] at hread
      cases hread
    | cons d front =>
      have hnone : reference? before (c :: rest) = none := by
        rw [reference?, Reference.read?_eq before none, hread]
        rfl
      rw [hitsFrom, hnone]
      have hmem := ih (List.cons.inj htext).2 (some c) (offset + 1)
      rw [Nat.add_right_comm] at hmem
      exact hmem
  | reference name' spelling' rest hs' ih =>
    rw [hitsFrom_append_of_read hs'.ne_nil (reference?_append hs' before rest)]
    by_cases hfront : front = []
    · subst hfront
      have hread := hs'.read? none rest
      rw [htext, List.nil_append, hs.read?] at hread
      obtain ⟨rfl, rfl⟩ := Prod.mk.inj (Option.some.inj hread)
      obtain rfl := List.append_cancel_right htext
      exact List.mem_cons_self
    · obtain ⟨between, rfl, hrest⟩ := hs'.prefix_of_append_eq hs hfront htext
      have hmem := ih hrest (spelling'.getLast?.or before) (offset + spelling'.length)
      rw [List.length_append, ← Nat.add_assoc]
      exact List.mem_cons_of_mem _ hmem

/-- Every spelling of a reference in a text is found. -/
theorem mem_hits_reference (hs : Spells letters spelling) (front back : List Char) :
    ⟨front.length, front.length + spelling.length, (letters, spelling)⟩ ∈
      hits reference? (front ++ (spelling ++ back)) := by
  simpa [hits] using mem_hitsFrom_reference hs rfl none 0

/-- What is found where a reference is spelled is that reference. -/
theorem value_of_mem_hits_reference (hs : Spells letters spelling) {front back : List Char}
    {hit : Hit (List Char × List Char)} (hmem : hit ∈ hits reference? (front ++ (spelling ++ back)))
    (hstart : hit.start = front.length) : hit.value = (letters, spelling) := by
  obtain ⟨before, after, hread⟩ := exists_of_mem_hits hmem
  rw [hstart, List.drop_left, reference?_append hs] at hread
  exact (Prod.mk.inj (Option.some.inj hread)).1.symm

/-- No literal of a colour begins with the letter of a reference. -/
theorem read_eq_none_of_literal {read : Recogniser (List Char)}
    (hread : read ∈ [hex?, function?, compact?]) (before : Option Char) (rest : List Char) :
    read before ('v' :: rest) = none := by
  simp only [List.mem_cons, List.not_mem_nil, or_false] at hread
  rcases hread with rfl | rfl | rfl
  · rfl
  · have hred : afterFolded? ['r', 'g', 'b'] ('v' :: rest) = none := rfl
    have hhue : afterFolded? ['h', 's', 'l'] ('v' :: rest) = none := rfl
    simp [function?, functionHead?, hred, hhue]
  · have hnumber : CompactTriple.plain? ('v' :: rest) = none := by
      simp [CompactTriple.plain?, run?, List.span_eq_takeWhile_dropWhile,
        List.takeWhile_cons_of_neg (show ¬('v').isDigit = true by decide)]
    simp [compact?, CompactTriple.read?, hnumber]

end Token

namespace Record

variable {α : Type}

/-- An entry is kept when it is the only one of its range up to some place. -/
theorem mem_firstOfEach {entry : Range × α} {front back : List (Range × α)} {seen : List String}
    (hmem : entry ∈ front) (honly : ∀ e ∈ front, e.1 = entry.1 → e = entry)
    (hseen : entry.1.key ∉ seen) : entry ∈ firstOfEach seen (front ++ back) := by
  induction front generalizing seen with
  | nil => cases hmem
  | cons first front ih =>
    rw [List.cons_append, firstOfEach]
    by_cases hfirst : first.1 = entry.1
    · obtain rfl := honly first List.mem_cons_self hfirst
      simp [hseen]
    · have hkey : entry.1.key ≠ first.1.key := fun h => hfirst (Range.key_inj h).symm
      have hmem' : entry ∈ front := by
        rcases List.mem_cons.mp hmem with rfl | hmem
        · exact absurd rfl hfirst
        · exact hmem
      have honly' := fun e he => honly e (List.mem_cons_of_mem first he)
      split
      · exact ih hmem' honly' hseen
      · exact List.mem_cons_of_mem _ (ih hmem' honly' (by simp [hkey, hseen]))

end Record

end Swatch
