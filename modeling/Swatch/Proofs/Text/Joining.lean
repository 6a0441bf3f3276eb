import Swatch.Proofs.Text.Scanning

/-!
Texts that are put together from words, with separators around and between them. Main statement: the
pieces of a text are the words that it is put together from, and there is no other way to put it
together.
-/

namespace Swatch.Text

/-- A text of words and gaps: no word is empty or has a separator in it, the gaps are separators, and
between two words there is at least one. -/
inductive Joins (isSeparator : Char → Bool) : (words : List (List Char)) → (text : List Char) → Prop where
  | gap {gap : List Char} (hgap : ∀ c ∈ gap, isSeparator c = true) : Joins isSeparator [] gap
  | word {gap word rest : List Char} {words : List (List Char)}
      (hgap : ∀ c ∈ gap, isSeparator c = true) (hne : word ≠ [])
      (hword : ∀ c ∈ word, isSeparator c = false) (hend : ∀ c ∈ rest.head?, isSeparator c = true)
      (hrest : Joins isSeparator words rest) : Joins isSeparator (word :: words) (gap ++ (word ++ rest))

section Joins

variable {isSeparator : Char → Bool} {words : List (List Char)} {word gap cs : List Char} {c d : Char}

theorem pieces_append_gap (hgap : ∀ c ∈ gap, isSeparator c = true) :
    pieces isSeparator (gap ++ cs) = pieces isSeparator cs := by
  induction gap with
  | nil => rfl
  | cons c gap ih =>
    rw [List.cons_append, pieces_cons_separator (hgap c List.mem_cons_self)]
    exact ih fun d hd => hgap d (List.mem_cons_of_mem c hd)

theorem Joins.pieces_eq (h : Joins isSeparator words cs) : pieces isSeparator cs = words := by
  induction h with
  | @gap gap hgap =>
    have hnone := @pieces_append_gap _ gap [] hgap
    rwa [List.append_nil] at hnone
  | word hgap hne hword hend _ ih => rw [pieces_append_gap hgap, pieces_append hne hword hend, ih]

theorem Joins.cons_separator (h : Joins isSeparator words cs) (hc : isSeparator c = true) :
    Joins isSeparator words (c :: cs) := by
  cases h with
  | gap hgap => exact .gap (List.forall_mem_cons.mpr ⟨hc, hgap⟩)
  | @word gap _ _ _ hgap hne hword hend hrest =>
    exact @Joins.word _ (c :: gap) _ _ _ (List.forall_mem_cons.mpr ⟨hc, hgap⟩) hne hword hend hrest

/-- A character in front of a separator, or of nothing, is a word. -/
theorem Joins.cons_word (h : Joins isSeparator words cs) (hc : isSeparator c = false)
    (hend : ∀ d ∈ cs.head?, isSeparator d = true) : Joins isSeparator ([c] :: words) (c :: cs) :=
  @Joins.word _ [] [c] cs words (by simp) (List.cons_ne_nil c []) (by simpa using hc) hend h

/-- A character in front of a word belongs to it. -/
theorem Joins.cons_letter (h : Joins isSeparator (word :: words) (d :: cs)) (hc : isSeparator c = false)
    (hd : isSeparator d = false) : Joins isSeparator ((c :: word) :: words) (c :: d :: cs) := by
  generalize htext : d :: cs = text at h
  cases h with
  | @word gap _ rest _ hgap _ hword hend hrest =>
    -- The first word begins where the text does.
    have hnone : gap = [] := by
      cases gap with
      | nil => rfl
      | cons e gap =>
        have he := hgap e List.mem_cons_self
        rw [← (List.cons.inj htext).1, hd] at he
        cases he
    subst hnone
    exact @Joins.word _ [] (c :: word) _ _ (by simp) (List.cons_ne_nil c word)
      (List.forall_mem_cons.mpr ⟨hc, hword⟩) hend hrest

theorem joins_pieces (isSeparator : Char → Bool) (cs : List Char) :
    Joins isSeparator (pieces isSeparator cs) cs := by
  induction cs with
  | nil => exact .gap (by simp)
  | cons c rest ih =>
    by_cases hc : isSeparator c = true
    · rw [pieces_cons_separator hc]
      exact ih.cons_separator hc
    · have hc' : isSeparator c = false := eq_false_of_ne_true hc
      by_cases hend : ∀ d ∈ rest.head?, isSeparator d = true
      · rw [pieces_cons_of_end hc' hend]
        exact ih.cons_word hc' hend
      · obtain ⟨d, tail, rfl, hd⟩ : ∃ d tail, rest = d :: tail ∧ isSeparator d = false := by
          cases rest with
          | nil => exact absurd (by simp) hend
          | cons d tail => exact ⟨d, tail, rfl, by simpa using hend⟩
        unfold pieces
        rw [if_neg hc]
        cases hpieces : pieces isSeparator (d :: tail) with
        | nil =>
          have hnone := congrArg List.flatten hpieces
          rw [flatten_pieces, List.filter_cons_of_pos (by simp [hd])] at hnone
          cases hnone
        | cons word words =>
          rw [hpieces] at ih
          simp only [hd, Bool.false_eq_true, if_false]
          exact ih.cons_letter hc' hd

/-- Taking a text to pieces undoes putting it together from words. -/
theorem pieces_eq_iff : pieces isSeparator cs = words ↔ Joins isSeparator words cs :=
  ⟨fun h => h ▸ joins_pieces isSeparator cs, Joins.pieces_eq⟩

theorem Joins.mem (h : Joins isSeparator words cs) (hc : c ∈ cs) :
    isSeparator c = true ∨ ∃ word ∈ words, c ∈ word := by
  induction h with
  | gap hgap => exact .inl (hgap c hc)
  | @word gap word rest words hgap _ _ _ _ ih =>
    rw [List.mem_append, List.mem_append] at hc
    rcases hc with hc | hc | hc
    · exact .inl (hgap c hc)
    · exact .inr ⟨word, List.mem_cons_self, hc⟩
    · rcases ih hc with hsep | ⟨other, hother, hc⟩
      · exact .inl hsep
      · exact .inr ⟨other, List.mem_cons_of_mem _ hother, hc⟩

theorem Joins.forall_mem_word (h : Joins isSeparator words cs) :
    ∀ word ∈ words, ∀ c ∈ word, isSeparator c = false := by
  induction h with
  | gap => simp
  | word _ _ hword _ _ ih => exact List.forall_mem_cons.mpr ⟨hword, ih⟩

/-- Words and gaps are kept by what keeps separators and other characters apart. -/
theorem Joins.map {f : Char → Char} (hf : ∀ c, isSeparator (f c) = isSeparator c)
    (h : Joins isSeparator words cs) : Joins isSeparator (words.map (·.map f)) (cs.map f) := by
  have hmap {b : Bool} {ds : List Char} (hds : ∀ c ∈ ds, isSeparator c = b) :
      ∀ c ∈ ds.map f, isSeparator c = b := by
    simpa [hf] using hds
  induction h with
  | gap hgap => exact .gap (hmap hgap)
  | word hgap hne hword hend _ ih =>
    rw [List.map_append, List.map_append]
    refine .word (hmap hgap) (by simpa using hne) (hmap hword) ?_ ih
    simpa [hf] using hend

end Joins

end Swatch.Text
