import Swatch.Proofs.Stylesheet.Enclosure
import Swatch.Proofs.Stylesheet.Reach

/-!
Comments in front of a block. The selector of a block is looked for line by line, and a line is passed
over if it begins or ends like a comment, so that it matters how a comment lies on its lines. Main
statement: what becomes of a selector when a comment is put between it and the brace. A comment on lines
of its own changes nothing, but for what stands on the lines inside it.
-/

namespace Swatch

open Text

/-! ### Lines -/

/-- What a text has behind its last line break. -/
def lastLine (cs : List Char) : List Char :=
  (firstLine cs.reverse).reverse

def linesAbove (cs : List Char) : List (List Char) :=
  (cs.splitOn '\n').dropLast

def linesBelow (cs : List Char) : List (List Char) :=
  (cs.splitOn '\n').tail

section Lines

variable {front back : List Char}

theorem exists_firstLine (cs : List Char) :
    '\n' ∉ firstLine cs ∧
      (cs = firstLine cs ∨ ∃ rest, cs = firstLine cs ++ '\n' :: rest) := by
  refine ⟨fun hmem => absurd (List.mem_takeWhile_imp hmem) (by simp), ?_⟩
  have hsplit : cs = firstLine cs ++ cs.dropWhile (· != '\n') := List.takeWhile_append_dropWhile.symm
  cases hrest : cs.dropWhile (· != '\n') with
  | nil =>
    rw [hrest, List.append_nil] at hsplit
    exact .inl hsplit
  | cons c rest =>
    have hhead := List.head?_dropWhile_not (· != '\n') cs
    rw [hrest] at hhead hsplit
    obtain rfl : c = '\n' := by simpa using hhead
    exact .inr ⟨rest, hsplit⟩

theorem exists_lastLine (cs : List Char) :
    '\n' ∉ lastLine cs ∧ (cs = lastLine cs ∨ ∃ upper, cs = upper ++ '\n' :: lastLine cs) := by
  obtain ⟨hline, hsplit⟩ := exists_firstLine cs.reverse
  refine ⟨by simpa [lastLine] using hline, hsplit.imp (fun h => ?_) ?_⟩
  · rw [lastLine, ← h, List.reverse_reverse]
  · rintro ⟨rest, hrest⟩
    refine ⟨rest.reverse, ?_⟩
    have hreverse := congrArg List.reverse hrest
    simpa [lastLine] using hreverse

/-- The lines of two texts together: the last one of the first goes on with the first one of the second. -/
theorem splitOn_append (front back : List Char) : (front ++ back).splitOn '\n' =
    linesAbove front ++ (lastLine front ++ back).splitOn '\n' := by
  obtain ⟨hline, hwhole | ⟨upper, hupper⟩⟩ := exists_lastLine front
  · have habove : linesAbove front = [] := by
      rw [linesAbove, hwhole, List.splitOn_eq_singleton hline]
      rfl
    rw [habove, ← hwhole, List.nil_append]
  · have habove : linesAbove front = upper.splitOn '\n' := by
      rw [linesAbove, hupper, List.splitOn_append_cons_self, List.splitOn_eq_singleton hline,
        List.dropLast_concat]
    rw [habove, ← List.splitOn_append_cons_self, ← List.cons_append, ← List.append_assoc, ← hupper]

theorem firstLine_of_notMem (hfront : '\n' ∉ front) : firstLine front = front := by
  have happend := @firstLine_append front [] hfront
  have hnil : firstLine [] = [] := rfl
  rwa [List.append_nil, hnil, List.append_nil] at happend

theorem linesBelow_of_notMem (hfront : '\n' ∉ front) : linesBelow front = [] := by
  rw [linesBelow, List.splitOn_eq_singleton hfront]
  rfl

theorem splitOn_append_of_notMem (hfront : '\n' ∉ front) :
    (front ++ back).splitOn '\n' = (front ++ firstLine back) :: linesBelow back := by
  obtain ⟨hline, hwhole | ⟨rest, hrest⟩⟩ := exists_firstLine back
  · have hnone : '\n' ∉ front ++ firstLine back := by simp [hfront, hline]
    have hbelow : linesBelow back = [] := by
      rw [hwhole, linesBelow_of_notMem hline]
    rw [hbelow, ← List.splitOn_eq_singleton hnone, ← hwhole]
  · have hnone : '\n' ∉ front ++ firstLine back := by simp [hfront, hline]
    have hbelow : linesBelow back = rest.splitOn '\n' := by
      rw [linesBelow, hrest, List.splitOn_append_cons_self, List.splitOn_eq_singleton hline]
      rfl
    rw [hbelow, ← List.singleton_append, ← List.splitOn_eq_singleton hnone,
      ← List.splitOn_append_cons_self, List.append_assoc, ← hrest]

end Lines

namespace Selector

/-! ### What lines say -/

/-- What the lowest of some lines says that says anything. -/
def said (lines : List (List Char)) : Option (List Char) :=
  lines.reverse.findSome? onLine?

/-- The part of a line that may be a selector: what stands behind its last brace or semicolon. -/
def fragment (line : List Char) : List Char :=
  (line.reverse.takeWhile (!isDelimiter ·)).reverse

section Said

variable {line more blanks : List Char}

theorem said_append (upper lower : List (List Char)) :
    said (upper ++ lower) = (said lower).or (said upper) := by
  rw [said, List.reverse_append, List.findSome?_append]
  rfl

theorem said_cons (line : List Char) (lower : List (List Char)) :
    said (line :: lower) = (said lower).or (onLine? line) := by
  rw [← List.singleton_append, said_append]
  simp [said]

/-- What two texts together say: the lines of the second below its first one, else the line on which they
meet, else the lines of the first above that. -/
theorem said_splitOn_append (front back : List Char) : said ((front ++ back).splitOn '\n') =
    (said (linesBelow back)).or
      ((onLine? (lastLine front ++ firstLine back)).or (said (linesAbove front))) := by
  rw [splitOn_append, splitOn_append_of_notMem (exists_lastLine front).1, said_append, said_cons,
    Option.or_assoc]

theorem lastOn_append_line (front : List Char) (hline : '\n' ∉ line) : lastOn (front ++ line) =
    ((onLine? (lastLine front ++ line)).or (said (linesAbove front))).elim default String.ofList := by
  change (said ((front ++ line).splitOn '\n')).elim default String.ofList = _
  rw [said_splitOn_append, linesBelow_of_notMem hline, firstLine_of_notMem hline]
  rfl

theorem lastOn_eq (front : List Char) : lastOn front =
    ((onLine? (lastLine front)).or (said (linesAbove front))).elim default String.ofList := by
  have hline := lastOn_append_line front (List.not_mem_nil : '\n' ∉ [])
  rwa [List.append_nil, List.append_nil] at hline

/-- Of two texts, the lines of the second below its first one go first. -/
theorem lastOn_append (front back : List Char) : lastOn (front ++ back) =
    (said (linesBelow back)).elim (lastOn (front ++ firstLine back)) String.ofList := by
  rw [lastOn_append_line front (exists_firstLine back).1]
  change (said ((front ++ back).splitOn '\n')).elim default String.ofList = _
  rw [said_splitOn_append]
  cases said (linesBelow back) <;> rfl

theorem fragment_append (hmore : ∀ c ∈ more, isDelimiter c = false) :
    fragment (line ++ more) = fragment line ++ more := by
  have hreverse : ∀ c ∈ more.reverse, (!isDelimiter c) = true := by
    intro c hc
    rw [hmore c (List.mem_reverse.mp hc)]
    rfl
  rw [fragment, List.reverse_append, List.takeWhile_append_of_pos hreverse, List.reverse_append,
    List.reverse_reverse, fragment]

theorem onLine?_eq_none_iff : onLine? line = none ↔ trim (fragment line) = [] ∨
    ['/', '*'] <+: trim (fragment line) ∨ ['*', '/'] <:+ trim (fragment line) := by
  simp [onLine?, fragment, or_iff_not_imp_left]

theorem eq_of_onLine? {selector : List Char} (h : onLine? line = some selector) :
    selector = collapseBlanks (trim (fragment line)) := by
  unfold onLine? at h
  dsimp only at h
  split at h
  · cases h
  · exact (Option.some.inj h).symm

theorem isDelimiter_of_isBlank {c : Char} (hc : isBlank c = true) : isDelimiter c = false := by
  rw [Bool.eq_false_iff]
  intro hdelimiter
  simp only [isDelimiter, Bool.or_eq_true, beq_iff_eq] at hdelimiter
  rcases hdelimiter with (rfl | rfl) | rfl <;> exact absurd hc (by decide)

/-- White space at the end of a line makes no difference. -/
theorem onLine?_append_blanks (hblanks : ∀ c ∈ blanks, isBlank c = true) :
    onLine? (line ++ blanks) = onLine? line := by
  have htrim : trim (fragment (line ++ blanks)) = trim (fragment line) := by
    rw [fragment_append fun c hc => isDelimiter_of_isBlank (hblanks c hc), trim_append_blanks hblanks]
  unfold fragment at htrim
  unfold onLine?
  rw [htrim]

theorem onLine?_of_blanks (hblanks : ∀ c ∈ fragment line, isBlank c = true) : onLine? line = none :=
  onLine?_eq_none_iff.mpr (.inl (trim_of_blanks hblanks))

/-- A line that ends like a comment says nothing. -/
theorem onLine?_closing (hblanks : ∀ c ∈ blanks, isBlank c = true) :
    onLine? (line ++ '*' :: '/' :: blanks) = none := by
  have hmark : ∀ c ∈ ['*', '/'], isDelimiter c = false := by simp [isDelimiter]
  have hline : line ++ '*' :: '/' :: blanks = (line ++ ['*', '/']) ++ blanks := by simp
  rw [hline, onLine?_append_blanks hblanks]
  refine onLine?_eq_none_iff.mpr (.inr (.inr ?_))
  obtain ⟨front, htrim⟩ := @exists_trimStart_append (fragment line) ['*', '/'] (by simp; decide)
  have hend : ∀ c ∈ (front ++ ['*', '/']).getLast?, isBlank c = false := by simp; decide
  rw [fragment_append hmark, trim, htrim, trimEnd_eq_self hend]
  exact List.suffix_append _ _

/-- A line that begins like a comment says nothing. -/
theorem onLine?_opening (hline : ∀ c ∈ fragment line, isBlank c = true)
    (hmore : ∀ c ∈ more, isDelimiter c = false) : onLine? (line ++ '/' :: '*' :: more) = none := by
  have hmark : ∀ c ∈ '/' :: '*' :: more, isDelimiter c = false := by
    simpa using ⟨by decide, by decide, hmore⟩
  have hstart : trimStart ('/' :: '*' :: more) = '/' :: '*' :: more :=
    trimStart_eq_self (by simp; decide)
  refine onLine?_eq_none_iff.mpr (.inr (.inl ?_))
  obtain ⟨front, hend⟩ := @exists_trimStart_append more.reverse ['*', '/'] (by simp; decide)
  have htrim : trim ('/' :: '*' :: more) = '/' :: '*' :: front.reverse := by
    rw [trim, hstart, trimEnd, List.reverse_cons, List.reverse_cons, List.append_assoc]
    change (trimStart (more.reverse ++ ['*', '/'])).reverse = _
    rw [hend]
    simp
  rw [fragment_append hmark, trim, trimStart_blanks_append hline, ← trim, htrim]
  exact ⟨front.reverse, rfl⟩

/-- White space behind a text makes no difference to what it says. -/
theorem lastOn_append_blanks (front : List Char) (hblanks : ∀ c ∈ blanks, isBlank c = true) :
    lastOn (front ++ blanks) = lastOn front := by
  induction blanks using List.reverseRecOn with
  | nil => rw [List.append_nil]
  | append_singleton blanks c ih =>
    have hc : ∀ d ∈ [c], isBlank d = true := by simpa using hblanks c (by simp)
    rw [← ih fun d hd => hblanks d (by simp [hd]), ← List.append_assoc]
    by_cases hnewline : c = '\n'
    · subst hnewline
      rw [lastOn, List.splitOn_append_cons_self, List.reverse_append]
      rfl
    · rw [lastOn_append_line _ (by simpa using Ne.symm hnewline), onLine?_append_blanks hc, ← lastOn_eq]

/-- A line that goes on like a comment behind its selector no longer says it. -/
theorem onLine?_append_opening_ne {selector : List Char} (hline : onLine? line = some selector)
    (hmore : ∀ c ∈ more, isDelimiter c = false) : onLine? (line ++ '/' :: '*' :: more) ≠ some selector := by
  intro hsaid
  have hmark : ∀ c ∈ '/' :: '*' :: more, isDelimiter c = false := by
    simpa using ⟨by decide, by decide, hmore⟩
  have hsame := (eq_of_onLine? hline).symm.trans (eq_of_onLine? hsaid)
  -- Apart from white space it would be a longer selector.
  have hlength := congrArg (fun cs => (cs.filter (!isBlank ·)).length) hsame
  have hslash : isBlank '/' = false := by decide
  have hplain : ∀ c, isBlank c = true → (!isBlank c) = false := fun c hc => by rw [hc, Bool.not_true]
  rw [fragment_append hmark] at hlength
  simp only [filter_collapseBlanks, filter_trim hplain, List.filter_append, List.length_append,
    List.filter_cons, hslash, Bool.not_false, if_true, List.length_cons] at hlength
  omega

end Said

/-! ### Comments -/

def comment (body : List Char) : List Char :=
  '/' :: '*' :: (body ++ ['*', '/'])

/-- The lines of a text between its first one and its last one. -/
def innerLines (cs : List Char) : List (List Char) :=
  (linesBelow cs).dropLast

section Comments

variable {body rest line : List Char}

theorem comment_append (body rest : List Char) :
    comment body ++ rest = '/' :: '*' :: (body ++ '*' :: '/' :: rest) := by
  simp [comment]

theorem newline_notMem_comment (hbody : '\n' ∉ body) : '\n' ∉ comment body := by
  simp [comment, hbody]

theorem innerLines_of_notMem (hbody : '\n' ∉ body) : innerLines body = [] := by
  rw [innerLines, linesBelow_of_notMem hbody]
  rfl

/-- A comment of several lines: the one that it begins on, those inside, and the one that it ends on. -/
theorem exists_comment_lines (hbody : '\n' ∈ body) (rest : List Char) :
    ∃ first last, '\n' ∉ first ∧ body = first ++ '\n' :: last ∧
      firstLine (comment body ++ rest) = '/' :: '*' :: first ∧
      linesBelow (comment body ++ rest) =
        innerLines body ++ (lastLine last ++ '*' :: '/' :: firstLine rest) :: linesBelow rest := by
  obtain ⟨hfirst, hwhole | ⟨last, hlast⟩⟩ := exists_firstLine body
  · rw [← hwhole] at hfirst
    exact absurd hbody hfirst
  · have hopening : '\n' ∉ '/' :: '*' :: firstLine body := by simp [hfirst]
    have hclosing : '\n' ∉ lastLine last ++ ['*', '/'] := by simp [(exists_lastLine last).1]
    have hcomment : comment body ++ rest =
        ('/' :: '*' :: firstLine body) ++ '\n' :: (last ++ (['*', '/'] ++ rest)) := by
      conv_lhs => rw [hlast]
      simp [comment]
    have hinner : innerLines body = linesAbove last := by
      rw [innerLines, linesBelow, hlast, List.splitOn_append_cons_self, List.splitOn_eq_singleton hfirst]
      rfl
    refine ⟨firstLine body, last, hfirst, hlast, ?_, ?_⟩
    · rw [hcomment, firstLine_append hopening, firstLine_newline, List.append_nil]
    · rw [linesBelow, hcomment, List.splitOn_append_cons_self, List.splitOn_eq_singleton hopening,
        splitOn_append, ← List.append_assoc (lastLine last), splitOn_append_of_notMem hclosing, hinner]
      simp

/-- Where nothing else follows on its last line, what a comment says below its first line is what the
lines inside it say. -/
theorem said_linesBelow_comment (hrest : ∀ c ∈ firstLine rest, isBlank c = true) :
    said (linesBelow (comment body ++ rest)) = (said (linesBelow rest)).or (said (innerLines body)) := by
  by_cases hbody : '\n' ∈ body
  · obtain ⟨first, last, -, -, -, hlines⟩ := exists_comment_lines hbody rest
    rw [hlines, said_append, said_cons, onLine?_closing hrest, Option.or_none]
  · rw [linesBelow, splitOn_append_of_notMem (newline_notMem_comment hbody), List.tail_cons,
      innerLines_of_notMem hbody]
    exact Option.or_none.symm

theorem exists_firstLine_comment (hbody : ∀ c ∈ body, isDelimiter c = false)
    (hrest : ∀ c ∈ firstLine rest, isBlank c = true) :
    ∃ more, firstLine (comment body ++ rest) = '/' :: '*' :: more ∧ ∀ c ∈ more, isDelimiter c = false := by
  by_cases hlines : '\n' ∈ body
  · obtain ⟨first, last, -, rfl, hfirst, -⟩ := exists_comment_lines hlines rest
    exact ⟨first, hfirst, fun c hc => hbody c (by simp [hc])⟩
  · refine ⟨body ++ '*' :: '/' :: firstLine rest, ?_, fun c hc => ?_⟩
    · rw [firstLine_append (newline_notMem_comment hlines), comment_append]
    · simp only [List.mem_append, List.mem_cons] at hc
      rcases hc with hc | rfl | rfl | hc
      · exact hbody c hc
      · decide
      · decide
      · exact isDelimiter_of_isBlank (hrest c hc)

end Comments

/-! ### Blocks -/

section Blocks

variable {front front' tail : List Char}

/-- Looking back over a text either finds a brace in it, whatever stands in front of the text, or goes on
in front of it. -/
theorem beforeOpenBrace?_append (depth : Nat) (cs : List Char) :
    (∃ found, ∀ rest, beforeOpenBrace? depth (cs ++ rest) = some (found ++ rest)) ∨
      ∃ depth', ∀ rest, beforeOpenBrace? depth (cs ++ rest) = beforeOpenBrace? depth' rest := by
  induction cs generalizing depth with
  | nil => exact .inr ⟨depth, fun rest => rfl⟩
  | cons c cs ih =>
    simp only [List.cons_append]
    by_cases hclose : c = '\x7d'
    · subst hclose
      simp only [beforeOpenBrace?_close]
      exact ih (depth + 1)
    by_cases hopen : c = '\x7b'
    · subst hopen
      cases depth with
      | zero => exact .inl ⟨cs, fun rest => rfl⟩
      | succ depth =>
        simp only [beforeOpenBrace?_open_succ]
        exact ih depth
    · simp only [beforeOpenBrace?_other depth _ hopen hclose]
      exact ih depth

theorem length_lt_of_beforeOpenBrace? {depth : Nat} {cs rest : List Char}
    (h : beforeOpenBrace? depth cs = some rest) : rest.length < cs.length := by
  rw [← List.reverse_reverse cs, beforeOpenBrace?_reverse, Option.map_eq_some_iff] at h
  obtain ⟨place, hplace, rfl⟩ := h
  have hlt := lt_length_of_mem_openBraces (List.mem_of_getElem? hplace)
  rw [List.length_reverse] at hlt
  rw [List.length_reverse, List.length_take, List.length_reverse]
  omega

/-- What stands in front of the brace that is found makes no difference to finding it. -/
theorem beforeOpenBrace?_move {cs : List Char}
    (h : beforeOpenBrace? 0 (cs ++ '\x7b' :: front) = some front) :
    beforeOpenBrace? 0 (cs ++ '\x7b' :: front') = some front' := by
  rcases beforeOpenBrace?_append 0 cs with ⟨found, hfound⟩ | ⟨depth, hdepth⟩
  · rw [hfound] at h
    have hlength := congrArg List.length (Option.some.inj h)
    rw [List.length_append, List.length_cons] at hlength
    omega
  · rw [hdepth] at h ⊢
    cases depth with
    | zero => rfl
    | succ depth =>
      rw [beforeOpenBrace?_open_succ] at h
      exact absurd (length_lt_of_beforeOpenBrace? h) (Nat.lt_irrefl _)

/-- A block is entered at its brace, and its selector is in front of that. -/
theorem enclosing_of_beforeOpenBrace? {cs : List Char} {index : Int}
    (h : beforeOpenBrace? 0 (cs.take index.toNat).reverse = some front.reverse) :
    enclosing cs index = lastOn front := by
  rw [enclosing, h]
  simp only [List.reverse_reverse, lastOn]
  cases (front.splitOn '\n').reverse.findSome? onLine? <;> rfl

/-- An index inside a block is inside it still when something is put in front of the brace. -/
theorem enclosing_move {inserted : List Char} {index : Int}
    (htop : (openBraces ((front ++ '\x7b' :: tail).take index.toNat)).head? = some front.length)
    (hinserted : front'.length = front.length + inserted.length) :
    enclosing (front ++ '\x7b' :: tail) index = lastOn front ∧
      enclosing (front' ++ '\x7b' :: tail) (index + inserted.length) = lastOn front' := by
  have hlt := lt_length_of_mem_openBraces (List.mem_of_head? htop)
  rw [List.length_take, Nat.lt_min] at hlt
  obtain ⟨inside, hinside⟩ := Nat.exists_eq_add_of_lt hlt.1
  have htake (front : List Char) : (front ++ '\x7b' :: tail).take (front.length + inside + 1) =
      front ++ '\x7b' :: tail.take inside := by
    rw [Nat.add_assoc, List.take_length_add_append, List.take_succ_cons]
  have hindex : (index + inserted.length).toNat = front'.length + inside + 1 := by omega
  have hfound : beforeOpenBrace? 0 ((tail.take inside).reverse ++ '\x7b' :: front.reverse) =
      some front.reverse := by
    have hback := beforeOpenBrace?_of_head? htop
    rw [hinside, htake, List.take_left] at hback
    simpa using hback
  constructor
  · refine enclosing_of_beforeOpenBrace? ?_
    rw [hinside, htake]
    simpa using hfound
  · refine enclosing_of_beforeOpenBrace? ?_
    rw [hindex, htake]
    simpa using beforeOpenBrace?_move hfound

end Blocks

/-- Whether the selector at an index is what it was without the text that has been put in. -/
def Spares (inserted front rest : List Char) (index : Int) : Prop :=
  enclosing (front ++ (inserted ++ rest)) (index + inserted.length) = enclosing (front ++ rest) index

/-- A comment between a selector and its brace, with white space around it: the selector is what it was
if what the comment's lines say below its first one, and else the text up to the end of that line, comes
to the same. Where nothing else follows on the comment's last line, this is so if nothing stands in front
of it on its first line and the lines inside it say nothing; but a line with the selector on it, on which
the comment begins, no longer says the selector. -/
theorem spares_iff {front back tail body before after : List Char} {index : Int}
    (hbody : ∀ c ∈ body, isDelimiter c = false) (hbefore : ∀ c ∈ before, isBlank c = true)
    (htop : (openBraces ((front ++ (back ++ '\x7b' :: tail)).take index.toNat)).head? =
      some (front ++ back).length)
    (hfront : lastOn (front ++ back) = lastOn front)
    (hback : said (linesBelow (after ++ back)) = none) :
    (Spares (before ++ (comment body ++ after)) front (back ++ '\x7b' :: tail) index ↔
      (said (linesBelow (comment body ++ firstLine (after ++ back)))).elim
        (lastOn (front ++ (before ++ firstLine (comment body ++ firstLine (after ++ back)))))
        String.ofList = lastOn front) ∧
    ((∀ c ∈ firstLine (after ++ back), isBlank c = true) →
      ((∀ c ∈ fragment (lastLine (front ++ before)), isBlank c = true) → said (innerLines body) = none →
        Spares (before ++ (comment body ++ after)) front (back ++ '\x7b' :: tail) index) ∧
      ∀ selector, onLine? (lastLine (front ++ before)) = some selector →
        onLine? (lastLine (front ++ before) ++ firstLine (comment body ++ firstLine (after ++ back))) ≠
          some selector) := by
  rw [← List.append_assoc] at htop
  obtain ⟨hold, hnew⟩ := @enclosing_move (front ++ back)
    (front ++ (before ++ (comment body ++ (after ++ back)))) tail (before ++ (comment body ++ after))
    index htop (by simp only [List.length_append]; omega)
  have hspares : Spares (before ++ (comment body ++ after)) front (back ++ '\x7b' :: tail) index ↔
      (said (linesBelow (comment body ++ firstLine (after ++ back)))).elim
        (lastOn (front ++ (before ++ firstLine (comment body ++ firstLine (after ++ back)))))
        String.ofList = lastOn front := by
    have hanswer : lastOn (front ++ (before ++ (comment body ++ (after ++ back)))) =
        (said (linesBelow (comment body ++ firstLine (after ++ back)))).elim
          (lastOn (front ++ (before ++ firstLine (comment body ++ firstLine (after ++ back)))))
          String.ofList := by
      have hbelow := lastOn_append (front ++ (before ++ comment body)) (after ++ back)
      have hcomment := lastOn_append (front ++ before) (comment body ++ firstLine (after ++ back))
      rw [hback, Option.elim_none] at hbelow
      simp only [List.append_assoc] at hbelow hcomment
      rw [hbelow, hcomment]
    rw [Spares, ← hanswer, ← hnew, ← hfront, ← hold]
    simp only [List.append_assoc]
  have hline := (exists_firstLine (after ++ back)).1
  generalize firstLine (after ++ back) = behind at hspares hline ⊢
  refine ⟨hspares, fun hbehind => ?_⟩
  have hrest : ∀ c ∈ firstLine behind, isBlank c = true := by rwa [firstLine_of_notMem hline]
  obtain ⟨more, hopening, hmore⟩ := exists_firstLine_comment hbody hrest
  refine ⟨fun halone hinner => hspares.mpr ?_, fun selector hselector => ?_⟩
  · have hnewline : '\n' ∉ '/' :: '*' :: more := hopening ▸ (exists_firstLine (comment body ++ behind)).1
    rw [said_linesBelow_comment hrest, linesBelow_of_notMem hline, hinner]
    change lastOn (front ++ (before ++ firstLine (comment body ++ behind))) = lastOn front
    rw [← List.append_assoc, hopening, lastOn_append_line _ hnewline, onLine?_opening halone hmore,
      ← lastOn_append_blanks front hbefore, lastOn_eq, onLine?_of_blanks halone]
  · rw [hopening]
    exact onLine?_append_opening_ne hselector hmore

theorem spares_iff_besideOlderComment :
    (openBraces ((".card\n".toList ++ ("/* old */\n".toList ++ '\x7b' :: "--x: #fff;\x7d".toList)).take
        (18 : Int).toNat)).head? = some (".card\n".toList ++ "/* old */\n".toList).length ∧
      Spares ([] ++ (comment " note\n\n ends ".toList ++ ['\n'])) ".card\n".toList
        ("/* old */\n".toList ++ '\x7b' :: "--x: #fff;\x7d".toList) 18 := by
  have htop : (openBraces ((".card\n".toList ++ ("/* old */\n".toList ++
      '\x7b' :: "--x: #fff;\x7d".toList)).take (18 : Int).toNat)).head? =
        some (".card\n".toList ++ "/* old */\n".toList).length := by decide +kernel
  have hfront : lastOn (".card\n".toList ++ "/* old */\n".toList) = lastOn ".card\n".toList := by
    decide +kernel
  have hback : said (linesBelow (['\n'] ++ "/* old */\n".toList)) = none := by decide +kernel
  have hbody : ∀ c ∈ " note\n\n ends ".toList, isDelimiter c = false := fun c hc =>
    Bool.eq_false_iff.mpr (List.any_eq_false.mp (by decide +kernel) c hc)
  have hbehind : ∀ c ∈ firstLine (['\n'] ++ "/* old */\n".toList), isBlank c = true :=
    List.all_eq_true.mp (by decide +kernel)
  have halone : ∀ c ∈ fragment (lastLine (".card\n".toList ++ [])), isBlank c = true :=
    List.all_eq_true.mp (by decide +kernel)
  obtain ⟨-, hplain⟩ := @spares_iff _ _ _ " note\n\n ends ".toList [] ['\n'] 18 hbody (by simp) htop
    hfront hback
  exact ⟨htop, (hplain hbehind).1 halone (by decide +kernel)⟩

/-- A comment on the line of the selector hides it. -/
theorem not_spares_of_sharedLine :
    (openBraces (".card \x7b--x: #fff;\x7d".toList.take (9 : Int).toNat)).head? = some 6 ∧
      enclosing ".card \x7b--x: #fff;\x7d".toList 9 = ".card" ∧
      enclosing ".card /* note */ \x7b--x: #fff;\x7d".toList 20 = ":root" ∧
      ¬Spares ([' '] ++ (comment " note ".toList ++ [])) ".card".toList
        " \x7b--x: #fff;\x7d".toList 9 := by
  unfold Spares
  decide +kernel

end Selector

end Swatch
