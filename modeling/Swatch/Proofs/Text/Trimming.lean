import Mathlib.Data.List.Chain
import Mathlib.Data.List.Infix
import Mathlib.Data.List.TakeWhile
import Swatch.Proofs.Text.Scanning

/-!
Trimming a text and collapsing its white space: what is left begins and ends with no white space, and
no white space in it but single spaces.
-/

namespace Swatch.Text

/-- The code points of white space. -/
def blankCodes : List Nat :=
  [0x09, 0x0A, 0x0B, 0x0C, 0x0D, 0x1C, 0x1D, 0x1E, 0x1F, 0x20, 0x85, 0xA0, 0x1680, 0x2000, 0x2001, 0x2002,
    0x2003, 0x2004, 0x2005, 0x2006, 0x2007, 0x2008, 0x2009, 0x200A, 0x2028, 0x2029, 0x202F, 0x205F, 0x3000]

/-- White space can be gone through. -/
theorem forall_of_blankCodes {P : Char → Prop} (hall : ∀ n ∈ blankCodes, P (Char.ofNat n)) {c : Char}
    (hc : isBlank c = true) : P c := by
  have hn : c.toNat ∈ blankCodes := by
    simp only [isBlank, Bool.or_eq_true, Bool.and_eq_true, decide_eq_true_eq, beq_iff_eq] at hc
    simp only [blankCodes, List.mem_cons, List.not_mem_nil, or_false]
    omega
  simpa using hall _ hn

/-- White space never belongs to a name. -/
theorem isName_of_isBlank {c : Char} (hc : isBlank c = true) : isName c = false :=
  forall_of_blankCodes (P := fun c => isName c = false) (by decide +kernel) hc

theorem isBlank_of_isSpace {c : Char} (hc : isSpace c = true) : isBlank c = true := by
  simp only [isSpace, Bool.or_eq_true, beq_iff_eq] at hc
  rcases hc with rfl | rfl <;> decide

/-! ### Trimming -/

theorem isBlank_head?_trimStart (cs : List Char) : ∀ c ∈ (trimStart cs).head?, isBlank c = false := by
  intro c hc
  have hnot := List.head?_dropWhile_not isBlank cs
  rw [trimStart] at hc
  rwa [hc] at hnot

theorem trimEnd_isPrefix (cs : List Char) : trimEnd cs <+: cs := by
  have hsuffix := List.dropWhile_suffix (l := cs.reverse) isBlank
  rw [← List.reverse_prefix, List.reverse_reverse] at hsuffix
  exact hsuffix

theorem trim_isInfix (cs : List Char) : trim cs <:+: cs :=
  (trimEnd_isPrefix _).isInfix.trans (trimStart_suffix cs).isInfix

theorem isBlank_getLast?_trim (cs : List Char) : ∀ c ∈ (trim cs).getLast?, isBlank c = false := by
  rw [trim, trimEnd, List.getLast?_reverse]
  exact isBlank_head?_trimStart (trimStart cs).reverse

theorem isBlank_head?_trim (cs : List Char) : ∀ c ∈ (trim cs).head?, isBlank c = false := by
  intro c hc
  obtain ⟨blanks, hblanks⟩ := trimEnd_isPrefix (trimStart cs)
  have hhead : (trimStart cs).head? = some c := by
    rw [← hblanks, List.head?_append, ← trim, Option.mem_def.mp hc, Option.some_or]
  exact isBlank_head?_trimStart cs c hhead

theorem exists_blanks_append (cs : List Char) :
    ∃ blanks, (∀ c ∈ blanks, isBlank c = true) ∧ cs = blanks ++ trimStart cs :=
  ⟨cs.takeWhile isBlank, fun _ => List.mem_takeWhile_imp, List.takeWhile_append_dropWhile.symm⟩

theorem exists_trimEnd_append (cs : List Char) :
    ∃ blanks, (∀ c ∈ blanks, isBlank c = true) ∧ cs = trimEnd cs ++ blanks := by
  obtain ⟨blanks, hblanks, heq⟩ := exists_blanks_append cs.reverse
  refine ⟨blanks.reverse, fun c hc => hblanks c (List.mem_reverse.mp hc), ?_⟩
  have hreverse := congrArg List.reverse heq
  rwa [List.reverse_reverse, List.reverse_append] at hreverse

/-- A text is what is left of it between two runs of white space. -/
theorem exists_trim_append (cs : List Char) :
    ∃ before after, (∀ c ∈ before, isBlank c = true) ∧ (∀ c ∈ after, isBlank c = true) ∧
      cs = before ++ (trim cs ++ after) := by
  obtain ⟨before, hbefore, hcs⟩ := exists_blanks_append cs
  obtain ⟨after, hafter, htrim⟩ := exists_trimEnd_append (trimStart cs)
  exact ⟨before, after, hbefore, hafter, hcs.trans (congrArg (before ++ ·) htrim)⟩

theorem trimStart_append {blanks rest : List Char} (hblanks : ∀ c ∈ blanks, isBlank c = true)
    (hrest : ∀ c ∈ rest.head?, isBlank c = false) : trimStart (blanks ++ rest) = rest := by
  rw [trimStart, List.dropWhile_append_of_pos hblanks]
  exact trimStart_eq_self hrest

section Around

variable {blanks cs mark : List Char}

theorem trimStart_blanks_append (hblanks : ∀ c ∈ blanks, isBlank c = true) :
    trimStart (blanks ++ cs) = trimStart cs :=
  List.dropWhile_append_of_pos hblanks

theorem trimStart_of_blanks (hblanks : ∀ c ∈ blanks, isBlank c = true) : trimStart blanks = [] :=
  List.dropWhile_eq_nil_iff.mpr hblanks

/-- White space ends where something else follows, so that only what is in front of that is trimmed. -/
theorem exists_trimStart_append (hmark : ∀ c ∈ mark.head?, isBlank c = false) :
    ∃ front, trimStart (cs ++ mark) = front ++ mark := by
  rw [trimStart, List.dropWhile_append]
  split
  · exact ⟨[], trimStart_eq_self hmark⟩
  · exact ⟨trimStart cs, rfl⟩

theorem trimEnd_append_blanks (hblanks : ∀ c ∈ blanks, isBlank c = true) :
    trimEnd (cs ++ blanks) = trimEnd cs := by
  have hreverse : ∀ c ∈ blanks.reverse, isBlank c = true := fun c hc => hblanks c (List.mem_reverse.mp hc)
  rw [trimEnd, List.reverse_append, List.dropWhile_append_of_pos hreverse, trimEnd]

theorem trim_append_blanks (hblanks : ∀ c ∈ blanks, isBlank c = true) : trim (cs ++ blanks) = trim cs := by
  unfold trim
  rw [trimStart, List.dropWhile_append]
  split
  · rename_i hnone
    have hcs : trimStart cs = [] := List.isEmpty_iff.mp hnone
    rw [hcs, ← trimStart, trimStart_of_blanks hblanks]
  · exact trimEnd_append_blanks hblanks

theorem trim_blanks_append (hblanks : ∀ c ∈ blanks, isBlank c = true) : trim (blanks ++ cs) = trim cs := by
  rw [trim, trimStart_blanks_append hblanks, trim]

theorem trim_of_blanks (hblanks : ∀ c ∈ blanks, isBlank c = true) : trim blanks = [] := by
  rw [trim, trimStart_of_blanks hblanks]
  rfl

/-- Trimming takes no character away that is not white space. -/
theorem filter_trim {p : Char → Bool} (hp : ∀ c, isBlank c = true → p c = false) (cs : List Char) :
    (trim cs).filter p = cs.filter p := by
  have hnone {blanks : List Char} (hblanks : ∀ c ∈ blanks, isBlank c = true) : blanks.filter p = [] :=
    List.filter_eq_nil_iff.mpr fun c hc => by simp [hp c (hblanks c hc)]
  obtain ⟨before, after, hbefore, hafter, hcs⟩ := exists_trim_append cs
  conv_rhs => rw [hcs]
  rw [List.filter_append, List.filter_append, hnone hbefore, hnone hafter, List.nil_append,
    List.append_nil]

theorem mem_trim_iff {c : Char} (hc : isBlank c = false) : c ∈ trim cs ↔ c ∈ cs := by
  have hother (d : Char) (hd : isBlank d = true) : (d == c) = false :=
    beq_eq_false_iff_ne.mpr fun h => by simp [h, hc] at hd
  have hfilter := filter_trim (p := (· == c)) hother cs
  have hmem (ds : List Char) : c ∈ ds ↔ c ∈ ds.filter (· == c) := by simp
  rw [hmem, hfilter, ← hmem]

end Around

/-! ### Collapsing -/

/-- No white space but single spaces. -/
structure IsCollapsed (cs : List Char) : Prop where
  eq_space : ∀ c ∈ cs, isBlank c = true → c = ' '
  isChain : cs.IsChain fun c d => isBlank c = true → isBlank d = false

theorem collapseBlanks_cons_of_not {c : Char} (hc : isBlank c = false) (rest : List Char) :
    collapseBlanks (c :: rest) = c :: collapseBlanks rest := by
  conv_lhs => unfold collapseBlanks
  rw [hc, if_neg Bool.false_ne_true]

/-- Of the white space in front of more of it nothing is left. -/
theorem collapseBlanks_cons_cons {c d : Char} (hc : isBlank c = true) (rest : List Char) :
    collapseBlanks (c :: d :: rest) =
      if isBlank d then collapseBlanks (d :: rest) else ' ' :: collapseBlanks (d :: rest) := by
  conv_lhs => unfold collapseBlanks
  rw [if_pos hc]

theorem collapseBlanks_singleton {c : Char} (hc : isBlank c = true) : collapseBlanks [c] = [' '] := by
  rw [collapseBlanks, if_pos hc]

theorem mem_collapseBlanks {c : Char} {cs : List Char} (hc : c ∈ collapseBlanks cs) :
    c = ' ' ∨ c ∈ cs ∧ isBlank c = false := by
  induction cs using collapseBlanks.induct with
  | case1 => cases hc
  | case2 b hb d tail hd ih =>
    rw [collapseBlanks_cons_cons hb, if_pos hd] at hc
    exact (ih hc).imp_right fun h => ⟨List.mem_cons_of_mem b h.1, h.2⟩
  | case3 b hb d tail hd ih =>
    rw [collapseBlanks_cons_cons hb, if_neg hd] at hc
    rcases List.mem_cons.mp hc with rfl | hc
    · exact .inl rfl
    · exact (ih hc).imp_right fun h => ⟨List.mem_cons_of_mem b h.1, h.2⟩
  | case4 b hb =>
    rw [collapseBlanks_singleton hb] at hc
    exact .inl (List.mem_singleton.mp hc)
  | case5 d tail hd ih =>
    rw [collapseBlanks_cons_of_not (Bool.eq_false_iff.mpr hd)] at hc
    rcases List.mem_cons.mp hc with rfl | hc
    · exact .inr ⟨List.mem_cons_self, Bool.eq_false_iff.mpr hd⟩
    · exact (ih hc).imp_right fun h => ⟨List.mem_cons_of_mem d h.1, h.2⟩

/-- Where a text begins with no white space it keeps its first character. -/
theorem head?_collapseBlanks {cs : List Char} (hhead : ∀ c ∈ cs.head?, isBlank c = false) :
    (collapseBlanks cs).head? = cs.head? := by
  cases cs with
  | nil => rfl
  | cons c rest => simp [collapseBlanks, hhead c rfl]

/-- Nor does collapsing. -/
theorem filter_collapseBlanks (cs : List Char) :
    (collapseBlanks cs).filter (!isBlank ·) = cs.filter (!isBlank ·) := by
  have hspace : isBlank ' ' = true := by decide
  induction cs using collapseBlanks.induct with
  | case1 => rfl
  | case2 b hb d tail hd ih =>
    rw [collapseBlanks_cons_cons hb, if_pos hd, ih]
    simp [hb]
  | case3 b hb d tail hd ih =>
    rw [collapseBlanks_cons_cons hb, if_neg hd]
    simp [hb, hspace, ih]
  | case4 b hb =>
    rw [collapseBlanks_singleton hb]
    simp [hb, hspace]
  | case5 d tail hd ih =>
    rw [collapseBlanks_cons_of_not (Bool.eq_false_iff.mpr hd)]
    simp [hd, ih]

theorem isCollapsed_collapseBlanks (cs : List Char) : IsCollapsed (collapseBlanks cs) := by
  refine ⟨fun c hc hblank => ?_, ?_⟩
  · rcases mem_collapseBlanks hc with rfl | ⟨-, hnot⟩
    · rfl
    · rw [hblank] at hnot
      cases hnot
  · induction cs using collapseBlanks.induct with
    | case1 => exact .nil
    | case2 b hb d tail hd ih =>
      rw [collapseBlanks_cons_cons hb, if_pos hd]
      exact ih
    | case3 b hb d tail hd ih =>
      -- The space stands before a character that is kept.
      rw [collapseBlanks_cons_cons hb, if_neg hd]
      refine List.isChain_cons.mpr ⟨fun e he _ => ?_, ih⟩
      rw [head?_collapseBlanks (by simpa using hd)] at he
      cases he
      exact Bool.eq_false_iff.mpr hd
    | case4 b hb =>
      rw [collapseBlanks_singleton hb]
      exact .singleton _
    | case5 d tail hd ih =>
      rw [collapseBlanks_cons_of_not (Bool.eq_false_iff.mpr hd)]
      exact List.isChain_cons.mpr ⟨fun _ _ hblank => absurd hblank hd, ih⟩

theorem getLast?_collapseBlanks {cs : List Char} (hlast : ∀ c ∈ cs.getLast?, isBlank c = false) :
    (collapseBlanks cs).getLast? = cs.getLast? := by
  induction cs using collapseBlanks.induct with
  | case1 => rfl
  | case2 b hb d tail hd ih =>
    rw [List.getLast?_cons_cons] at hlast ⊢
    rw [collapseBlanks_cons_cons hb, if_pos hd, ih hlast]
  | case3 b hb d tail hd ih =>
    rw [List.getLast?_cons_cons] at hlast ⊢
    rw [collapseBlanks_cons_cons hb, if_neg hd, List.getLast?_cons, ih hlast]
    simp [List.getLast?_cons]
  | case4 b hb => simp [hb] at hlast
  | case5 d tail hd ih =>
    rw [collapseBlanks_cons_of_not (Bool.eq_false_iff.mpr hd), List.getLast?_cons, List.getLast?_cons]
    cases tail with
    | nil => rfl
    | cons e tail =>
      rw [List.getLast?_cons_cons] at hlast
      rw [ih hlast]

end Swatch.Text
