import Mathlib.Data.List.Infix
import Swatch.Proofs.Text.Trimming
import Swatch.Stylesheet.Selector

/-!
The block that encloses a place of a text. Main statement: looking back for it with a counter of closing
braces finds the top of the stack of braces that reading forward keeps, however unbalanced the text is,
and the selector that is answered has no white space but single spaces inside.
-/

namespace Swatch.Selector

open Text

/-! ### Open braces -/

/-- What a character does to the stack of open braces: an opening brace is put on top with its place, and
a closing one takes the top away, if there is one. -/
def afterBrace (stack : List Nat) (entry : Char × Nat) : List Nat :=
  if entry.1 = '\x7b' then entry.2 :: stack
  else if entry.1 = '\x7d' then stack.tail
  else stack

/-- The places of the braces that are open at the end of a text, the innermost first. -/
def openBraces (cs : List Char) : List Nat :=
  cs.zipIdx.foldl afterBrace []

theorem openBraces_concat (cs : List Char) (c : Char) :
    openBraces (cs ++ [c]) = afterBrace (openBraces cs) (c, cs.length) := by
  simp [openBraces, List.zipIdx_append]

theorem getElem?_of_mem_openBraces {cs : List Char} {place : Nat} (hmem : place ∈ openBraces cs) :
    cs[place]? = some '\x7b' := by
  induction cs using List.reverseRecOn with
  | nil => cases hmem
  | append_singleton cs c ih =>
    have hearlier (hplace : place ∈ openBraces cs) : (cs ++ [c])[place]? = some '\x7b' := by
      obtain ⟨hlt, -⟩ := List.getElem?_eq_some_iff.mp (ih hplace)
      rw [List.getElem?_append_left hlt, ih hplace]
    rw [openBraces_concat, afterBrace] at hmem
    split at hmem
    · rename_i hopen
      rcases List.mem_cons.mp hmem with rfl | hplace
      · rw [List.getElem?_concat_length]
        exact congrArg some hopen
      · exact hearlier hplace
    · split at hmem
      · exact hearlier (List.mem_of_mem_tail hmem)
      · exact hearlier hmem

theorem lt_length_of_mem_openBraces {cs : List Char} {place : Nat} (hmem : place ∈ openBraces cs) :
    place < cs.length :=
  (List.getElem?_eq_some_iff.mp (getElem?_of_mem_openBraces hmem)).1

section

variable (depth : Nat) (rest : List Char)

theorem beforeOpenBrace?_close :
    beforeOpenBrace? depth ('\x7d' :: rest) = beforeOpenBrace? (depth + 1) rest := by
  cases depth <;> rfl

theorem beforeOpenBrace?_open_zero : beforeOpenBrace? 0 ('\x7b' :: rest) = some rest :=
  rfl

theorem beforeOpenBrace?_open_succ :
    beforeOpenBrace? (depth + 1) ('\x7b' :: rest) = beforeOpenBrace? depth rest :=
  rfl

theorem beforeOpenBrace?_other {c : Char} (hopen : c ≠ '\x7b') (hclose : c ≠ '\x7d') :
    beforeOpenBrace? depth (c :: rest) = beforeOpenBrace? depth rest := by
  cases depth <;> simp [beforeOpenBrace?, hopen, hclose]

end

/-- Looking back over a text, with some closing braces to make up for, goes as deep into the stack of its
open braces. -/
theorem beforeOpenBrace?_reverse (cs : List Char) (depth : Nat) :
    beforeOpenBrace? depth cs.reverse = (openBraces cs)[depth]?.map fun place => (cs.take place).reverse := by
  induction cs using List.reverseRecOn generalizing depth with
  | nil => rfl
  | append_singleton cs c ih =>
    have htake (n : Nat) : ((openBraces cs)[n]?.map fun place => ((cs ++ [c]).take place).reverse) =
        (openBraces cs)[n]?.map fun place => (cs.take place).reverse := by
      cases hplace : (openBraces cs)[n]? with
      | none => rfl
      | some place =>
        have hlt := lt_length_of_mem_openBraces (List.mem_of_getElem? hplace)
        rw [Option.map_some, Option.map_some, List.take_append_of_le_length hlt.le]
    rw [List.reverse_append, List.reverse_singleton, List.singleton_append, openBraces_concat, afterBrace]
    by_cases hopen : c = '\x7b'
    · subst hopen
      rw [if_pos rfl]
      cases depth with
      | zero => simp [beforeOpenBrace?_open_zero]
      | succ depth => rw [beforeOpenBrace?_open_succ, ih, List.getElem?_cons_succ, htake]
    · rw [if_neg hopen]
      by_cases hclose : c = '\x7d'
      · subst hclose
        rw [if_pos rfl, beforeOpenBrace?_close, ih, List.getElem?_tail, htake]
      · rw [if_neg hclose, beforeOpenBrace?_other depth _ hopen hclose, ih, htake]

/-- The brace that is found is the top of the stack. -/
theorem beforeOpenBrace?_of_head? {cs : List Char} {index brace : Nat}
    (htop : (openBraces (cs.take index)).head? = some brace) :
    beforeOpenBrace? 0 (cs.take index).reverse = some (cs.take brace).reverse := by
  have hlt := lt_length_of_mem_openBraces (List.mem_of_head? htop)
  rw [List.length_take, Nat.lt_min] at hlt
  rw [beforeOpenBrace?_reverse, ← List.head?_eq_getElem?, htop, Option.map_some, List.take_take,
    Nat.min_eq_left hlt.1.le]

/-! ### Selectors -/

/-- The selector of a block, given the text before its brace. -/
def lastOn (front : List Char) : String :=
  ((front.splitOn '\n').reverse.findSome? onLine?).elim default String.ofList

/-- A selector that can stand before a block, with no more white space than it needs. -/
structure IsTidy (selector : List Char) : Prop where
  ne_nil : selector ≠ []
  ne_delimiter : ∀ c ∈ selector, c ≠ '\x7b' ∧ c ≠ '\x7d' ∧ c ≠ ';'
  isBlank_head : ∀ c ∈ selector.head?, isBlank c = false
  isBlank_getLast : ∀ c ∈ selector.getLast?, isBlank c = false
  isCollapsed : IsCollapsed selector

theorem isTidy_default : IsTidy default.toList := by
  have hchars : default.toList = [':', 'r', 'o', 'o', 't'] := by decide
  have hplain : ∀ c ∈ default.toList, isBlank c = false := by simp [hchars, isBlank]
  refine ⟨by decide, by simp [hchars], ?_, ?_, ?_, ?_⟩
  · exact fun c hc => hplain c (List.mem_of_mem_head? hc)
  · exact fun c hc => hplain c (List.mem_of_getLast? hc)
  · exact fun c hc hblank => absurd hblank (by simp [hplain c hc])
  · simp [hchars, isBlank]

theorem isTidy_of_onLine? {line selector : List Char} (h : onLine? line = some selector) :
    IsTidy selector := by
  unfold onLine? at h
  generalize hfragment : (line.reverse.takeWhile (!isDelimiter ·)).reverse = fragment at h
  have hplain : ∀ c ∈ trim fragment, isDelimiter c = false := by
    intro c hc
    have hmem := (trim_isInfix fragment).subset hc
    rw [← hfragment] at hmem
    simpa using List.mem_takeWhile_imp (List.mem_reverse.mp hmem)
  have hhead := isBlank_head?_trim fragment
  have hlast := isBlank_getLast?_trim fragment
  dsimp only at h
  split at h
  · cases h
  · rename_i hcandidate
    cases h
    refine ⟨fun hnil => hcandidate ?_, fun c hc => ?_, ?_, ?_, isCollapsed_collapseBlanks _⟩
    · have hempty : trim fragment = [] := by
        rw [← List.head?_eq_none_iff, ← head?_collapseBlanks hhead, hnil, List.head?_nil]
      simp [hempty]
    · have hdelimiter : isDelimiter c = false := by
        rcases mem_collapseBlanks hc with rfl | ⟨hmem, -⟩
        · rfl
        · exact hplain c hmem
      simpa [isDelimiter, and_assoc] using hdelimiter
    · rwa [head?_collapseBlanks hhead]
    · rwa [getLast?_collapseBlanks hlast]

theorem isTidy_lastOn (front : List Char) : IsTidy (lastOn front).toList := by
  unfold lastOn
  cases hfound : (front.splitOn '\n').reverse.findSome? onLine? with
  | none => exact isTidy_default
  | some selector =>
    obtain ⟨line, -, hline⟩ := List.exists_of_findSome?_eq_some hfound
    rw [Option.elim_some, String.toList_ofList]
    exact isTidy_of_onLine? hline

/-- The brace that is looked for from an index of a text is the top of the stack that the text up to the
index leaves, and the answer is the selector in front of it, or the root where the stack is empty. What
is answered is always tidy. -/
theorem enclosing_eq_top (cs : List Char) (index : Int) :
    beforeOpenBrace? 0 (cs.take index.toNat).reverse =
        (openBraces (cs.take index.toNat)).head?.map (fun brace => (cs.take brace).reverse) ∧
      enclosing cs index =
        (openBraces (cs.take index.toNat)).head?.elim ":root" (fun brace => lastOn (cs.take brace)) ∧
      IsTidy (enclosing cs index).toList := by
  have hscan : beforeOpenBrace? 0 (cs.take index.toNat).reverse =
      (openBraces (cs.take index.toNat)).head?.map fun brace => (cs.take brace).reverse := by
    rw [beforeOpenBrace?_reverse, ← List.head?_eq_getElem?]
    cases htop : (openBraces (cs.take index.toNat)).head? with
    | none => rfl
    | some brace =>
      have hlt := lt_length_of_mem_openBraces (List.mem_of_mem_head? htop)
      rw [List.length_take, Nat.lt_min] at hlt
      rw [Option.map_some, Option.map_some, List.take_take, Nat.min_eq_left hlt.1.le]
  have hanswer : enclosing cs index =
      (openBraces (cs.take index.toNat)).head?.elim ":root" fun brace => lastOn (cs.take brace) := by
    rw [enclosing, hscan]
    cases (openBraces (cs.take index.toNat)).head? with
    | none => rfl
    | some brace =>
      simp only [Option.map_some, Option.elim_some, List.reverse_reverse, lastOn]
      cases ((cs.take brace).splitOn '\n').reverse.findSome? onLine? <;> rfl
  refine ⟨hscan, hanswer, ?_⟩
  rw [hanswer]
  cases (openBraces (cs.take index.toNat)).head? with
  | none => exact isTidy_default
  | some brace => exact isTidy_lastOn (cs.take brace)

end Swatch.Selector
