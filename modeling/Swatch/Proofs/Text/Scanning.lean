import Mathlib.Data.List.Basic
import Mathlib.Data.List.TakeDrop
import Mathlib.Data.List.TakeWhile
import Swatch.Text.Scan

/-!
What scanning a text finds. Each token was read at its place, and no two tokens overlap. To read a token
takes at least one character: what follows it is a proper end of the text.
-/

namespace Swatch.Text

/-! ### Scanning -/

section Hits

variable {α : Type} {read : Recogniser α} {hit : Hit α}

theorem getLast?_cons_or (c : Char) (taken : List Char) (before : Option Char) :
    (c :: taken).getLast?.or before = taken.getLast?.or (some c) := by
  cases taken <;> simp [List.getLast?_cons]

theorem exists_of_mem_hitsFrom {before : Option Char} {offset skip : Nat} {cs : List Char}
    (hmem : hit ∈ hitsFrom read before offset skip cs) :
    ∃ n after, hit.start = offset + n ∧ skip ≤ n ∧
      read ((cs.take n).getLast?.or before) (cs.drop n) = some (hit.value, after) ∧
      hit.stop = hit.start + ((cs.drop n).length - after.length) := by
  induction cs generalizing before offset skip with
  | nil => simp [hitsFrom] at hmem
  | cons c rest ih =>
    -- What is found further on stands one character later in the whole.
    have hlater {least skip' : Nat} (hleast : least ≤ skip' + 1)
        (hrest : hit ∈ hitsFrom read (some c) (offset + 1) skip' rest) :
        ∃ n after, hit.start = offset + n ∧ least ≤ n ∧
          read (((c :: rest).take n).getLast?.or before) ((c :: rest).drop n) =
            some (hit.value, after) ∧
          hit.stop = hit.start + (((c :: rest).drop n).length - after.length) := by
      obtain ⟨n, after, hstart, hskip, hread, hstop⟩ := ih hrest
      refine ⟨n + 1, after, by omega, by omega, ?_, hstop⟩
      rwa [List.take_succ_cons, getLast?_cons_or, List.drop_succ_cons]
    cases skip with
    | succ skip => exact hlater (Nat.le_refl _) hmem
    | zero =>
      unfold hitsFrom at hmem
      split at hmem
      · rename_i value after hread
        rcases List.mem_cons.mp hmem with rfl | hrest
        · exact ⟨0, after, rfl, Nat.le_refl 0, hread, rfl⟩
        · exact hlater (Nat.zero_le _) hrest
      · exact hlater (Nat.zero_le _) hmem

/-- What is found was read at its place in the text, behind the character in front of it. -/
theorem read_of_mem_hits {cs : List Char} (hmem : hit ∈ hits read cs) :
    ∃ after, read (cs.take hit.start).getLast? (cs.drop hit.start) = some (hit.value, after) ∧
      hit.stop = hit.start + ((cs.drop hit.start).length - after.length) := by
  obtain ⟨n, after, hstart, -, hread, hstop⟩ := exists_of_mem_hitsFrom hmem
  rw [Nat.zero_add] at hstart
  rw [Option.or_none] at hread
  exact ⟨after, hstart ▸ hread, hstart ▸ hstop⟩

theorem exists_of_mem_hits {cs : List Char} (hmem : hit ∈ hits read cs) :
    ∃ before after, read before (cs.drop hit.start) = some (hit.value, after) := by
  obtain ⟨after, hread, -⟩ := read_of_mem_hits hmem
  exact ⟨_, after, hread⟩

theorem pairwise_hitsFrom (read : Recogniser α) (before : Option Char) (offset skip : Nat)
    (cs : List Char) : (hitsFrom read before offset skip cs).Pairwise fun a b => a.stop ≤ b.start := by
  induction cs generalizing before offset skip with
  | nil => exact .nil
  | cons c rest ih =>
    cases skip with
    | succ skip => exact ih (some c) (offset + 1) skip
    | zero =>
      unfold hitsFrom
      split
      · rename_i value after hread
        refine List.pairwise_cons.mpr ⟨fun b hb => ?_, ih _ _ _⟩
        obtain ⟨n, -, hstart, hskip, -⟩ := exists_of_mem_hitsFrom hb
        change offset + ((c :: rest).length - after.length) ≤ b.start
        omega
      · exact ih _ _ _

/-- Tokens do not overlap, and they are found in their order. -/
theorem pairwise_hits (read : Recogniser α) (cs : List Char) :
    (hits read cs).Pairwise fun a b => a.stop ≤ b.start :=
  pairwise_hitsFrom read none 0 0 cs

/-! What scanning finds in a text that is put together. -/

variable {value : α} {before : Option Char} {offset : Nat} {taken token rest : List Char}

theorem hitsFrom_skip :
    hitsFrom read before offset taken.length (taken ++ rest) =
      hitsFrom read (taken.getLast?.or before) (offset + taken.length) 0 rest := by
  induction taken generalizing before offset with
  | nil => rfl
  | cons c taken ih =>
    have hoffset : offset + (c :: taken).length = offset + 1 + taken.length := by
      rw [List.length_cons]
      omega
    rw [getLast?_cons_or, hoffset, ← ih]
    rfl

/-- Where no token begins, scanning goes on behind. -/
theorem hitsFrom_append_of_none
    (hnone : ∀ c ∈ taken, ∀ before more, read before (c :: more) = none) :
    hitsFrom read before offset 0 (taken ++ rest) =
      hitsFrom read (taken.getLast?.or before) (offset + taken.length) 0 rest := by
  rw [← hitsFrom_skip]
  induction taken generalizing before offset with
  | nil => rfl
  | cons c taken ih =>
    rw [List.cons_append, hitsFrom, hnone c List.mem_cons_self]
    exact ih fun d hd => hnone d (List.mem_cons_of_mem c hd)

/-- A token that is read is found, and scanning goes on behind it. -/
theorem hitsFrom_append_of_read (hne : token ≠ [])
    (hread : read before (token ++ rest) = some (value, rest)) :
    hitsFrom read before offset 0 (token ++ rest) =
      ⟨offset, offset + token.length, value⟩ ::
        hitsFrom read (token.getLast?.or before) (offset + token.length) 0 rest := by
  cases token with
  | nil => exact absurd rfl hne
  | cons c token =>
    have hlength : (c :: (token ++ rest)).length - rest.length = (c :: token).length := by
      simp only [List.length_cons, List.length_append]
      omega
    rw [← hitsFrom_skip]
    simp only [List.cons_append] at hread ⊢
    rw [hitsFrom, hread]
    simp only [hlength]
    rfl

end Hits

/-! ### What follows a token -/

/-- The end of a text after at least one character of it. -/
def Follows (rest cs : List Char) : Prop :=
  ∃ c tail, cs = c :: tail ∧ rest <:+ tail

section Follows

variable {rest more cs : List Char}

theorem follows_cons (c : Char) (tail : List Char) : Follows tail (c :: tail) :=
  ⟨c, tail, rfl, List.suffix_refl tail⟩

theorem Follows.suffix (h : Follows rest cs) : rest <:+ cs := by
  obtain ⟨c, tail, rfl, hsuffix⟩ := h
  exact hsuffix.trans (List.suffix_cons c tail)

theorem Follows.length_lt (h : Follows rest cs) : rest.length < cs.length := by
  obtain ⟨c, tail, rfl, hsuffix⟩ := h
  exact Nat.lt_succ_of_le hsuffix.length_le

/-- Reading on after a token, perhaps by nothing. -/
theorem Follows.of_suffix (h : Follows rest cs) (hmore : more <:+ rest) : Follows more cs := by
  obtain ⟨c, tail, rfl, hsuffix⟩ := h
  exact ⟨c, tail, rfl, hmore.trans hsuffix⟩

/-- Reading a token further on. -/
theorem Follows.of_suffix_left (h : Follows more rest) (hrest : rest <:+ cs) : Follows more cs := by
  obtain ⟨front, rfl⟩ := hrest
  cases front with
  | nil => exact h
  | cons c front => exact ⟨c, front ++ rest, rfl, h.suffix.trans (List.suffix_append front rest)⟩

end Follows

theorem trimStart_suffix (cs : List Char) : trimStart cs <:+ cs :=
  List.dropWhile_suffix _

theorem span_eq_append (p : Char → Bool) (cs : List Char) : (cs.span p).1 ++ (cs.span p).2 = cs := by
  rw [List.span_eq_takeWhile_dropWhile]
  exact List.takeWhile_append_dropWhile

theorem run?_eq_append {p : Char → Bool} {cs taken rest : List Char}
    (h : run? p cs = some (taken, rest)) : taken ≠ [] ∧ taken ++ rest = cs := by
  have hspan := span_eq_append p cs
  unfold run? at h
  split at h
  · cases h
  · rename_i hne hsplit
    cases h
    rw [hsplit] at hspan
    exact ⟨fun hnil => hne hnil, hspan⟩

theorem follows_of_run? {p : Char → Bool} {cs taken rest : List Char}
    (h : run? p cs = some (taken, rest)) : Follows rest cs := by
  obtain ⟨hne, rfl⟩ := run?_eq_append h
  cases taken with
  | nil => exact absurd rfl hne
  | cons c taken => exact ⟨c, taken ++ rest, rfl, List.suffix_append taken rest⟩

theorem forall_mem_of_run? {p : Char → Bool} {cs taken rest : List Char}
    (h : run? p cs = some (taken, rest)) : ∀ c ∈ taken, p c = true := by
  unfold run? at h
  rw [List.span_eq_takeWhile_dropWhile] at h
  split at h
  · cases h
  · rename_i hsplit
    cases h
    cases hsplit
    exact fun _ => List.mem_takeWhile_imp

theorem suffix_of_after? {beginning : String} {cs rest : List Char}
    (h : after? beginning cs = some rest) : rest <:+ cs :=
  ⟨beginning.toList, List.isPrefixOf?_eq_some_iff_append_eq.mp h⟩

theorem suffix_of_afterFolded? {letters cs rest : List Char}
    (h : afterFolded? letters cs = some rest) : rest <:+ cs := by
  induction letters generalizing cs with
  | nil =>
    cases h
    exact List.suffix_refl _
  | cons letter letters ih =>
    cases cs with
    | nil => cases h
    | cons c cs =>
      unfold afterFolded? at h
      split at h
      · exact (ih h).trans (List.suffix_cons c cs)
      · cases h

/-! ### Texts by their parts -/

section Parts

variable {p : Char → Bool} {whole rest : List Char}

theorem span_append (hwhole : ∀ c ∈ whole, p c = true) (hrest : ∀ c ∈ rest.head?, p c = false) :
    (whole ++ rest).span p = (whole, rest) := by
  have hdrop : rest.dropWhile p = rest := by
    cases rest with
    | nil => rfl
    | cons c rest => exact List.dropWhile_cons_of_neg (by simp [hrest c rfl])
  have htake : rest.takeWhile p = [] := by
    cases rest with
    | nil => rfl
    | cons c rest => exact List.takeWhile_cons_of_neg (by simp [hrest c rfl])
  rw [List.span_eq_takeWhile_dropWhile, List.takeWhile_append_of_pos hwhole,
    List.dropWhile_append_of_pos hwhole, hdrop, htake, List.append_nil]

theorem run?_append (hne : whole ≠ []) (hwhole : ∀ c ∈ whole, p c = true)
    (hrest : ∀ c ∈ rest.head?, p c = false) : run? p (whole ++ rest) = some (whole, rest) := by
  rw [run?, span_append hwhole hrest]
  cases whole with
  | nil => exact absurd rfl hne
  | cons c whole => rfl

theorem exists_run?_append (hne : whole ≠ []) (hwhole : ∀ c ∈ whole, p c = true) (after : List Char) :
    ∃ more rest, run? p (whole ++ after) = some (whole ++ more, rest) ∧ rest <:+ after := by
  refine ⟨after.takeWhile p, after.dropWhile p, ?_, List.dropWhile_suffix p⟩
  obtain ⟨c, whole, rfl⟩ := List.exists_cons_of_ne_nil hne
  rw [run?, List.span_eq_takeWhile_dropWhile, List.takeWhile_append_of_pos hwhole,
    List.dropWhile_append_of_pos hwhole]
  rfl

end Parts

theorem trimStart_eq_self {cs : List Char} (hhead : ∀ c ∈ cs.head?, isBlank c = false) :
    trimStart cs = cs := by
  cases cs with
  | nil => rfl
  | cons c cs => exact List.dropWhile_cons_of_neg (by simp [hhead c rfl])

theorem trimEnd_eq_self {cs : List Char} (hlast : ∀ c ∈ cs.getLast?, isBlank c = false) :
    trimEnd cs = cs := by
  have hreverse : trimStart cs.reverse = cs.reverse := by
    refine trimStart_eq_self ?_
    rwa [List.head?_reverse]
  rw [trimEnd, ← trimStart, hreverse, List.reverse_reverse]

theorem trim_eq_self {cs : List Char} (hhead : ∀ c ∈ cs.head?, isBlank c = false)
    (hlast : ∀ c ∈ cs.getLast?, isBlank c = false) : trim cs = cs := by
  rw [trim, trimStart_eq_self hhead, trimEnd_eq_self hlast]

theorem forall_mem_head?_cons {p : Char → Bool} {c : Char} (hc : p c = true) (rest : List Char) :
    ∀ d ∈ (c :: rest).head?, p d = true := by
  intro d hd
  cases hd
  exact hc

/-- A character before a separator, or before nothing, is a piece. -/
theorem pieces_cons_of_end {isSeparator : Char → Bool} {c : Char} {rest : List Char}
    (hc : isSeparator c = false) (hrest : ∀ d ∈ rest.head?, isSeparator d = true) :
    pieces isSeparator (c :: rest) = [c] :: pieces isSeparator rest := by
  cases rest with
  | nil => simp [pieces, hc]
  | cons d rest =>
    have hd : isSeparator d = true := hrest d rfl
    conv_lhs => unfold pieces
    cases hpieces : pieces isSeparator (d :: rest) <;> simp [hc, hd]

theorem pieces_append {isSeparator : Char → Bool} {word rest : List Char} (hne : word ≠ [])
    (hword : ∀ c ∈ word, isSeparator c = false) (hrest : ∀ c ∈ rest.head?, isSeparator c = true) :
    pieces isSeparator (word ++ rest) = word :: pieces isSeparator rest := by
  induction word with
  | nil => exact absurd rfl hne
  | cons c word ih =>
    have hc : isSeparator c = false := hword c List.mem_cons_self
    cases word with
    | nil => exact pieces_cons_of_end hc hrest
    | cons d word =>
      have hd : isSeparator d = false := hword d (by simp)
      have hmore := ih (List.cons_ne_nil d word) fun e he => hword e (List.mem_cons_of_mem c he)
      rw [List.cons_append] at hmore
      conv_lhs => unfold pieces
      simp only [hc, hmore, Bool.false_eq_true, if_false, List.cons_append, hd]

theorem pieces_cons_separator {isSeparator : Char → Bool} {c : Char} (hc : isSeparator c = true)
    (rest : List Char) : pieces isSeparator (c :: rest) = pieces isSeparator rest := by
  conv_lhs => unfold pieces
  rw [if_pos hc]

/-- The pieces of a text are all of it but the separators. -/
theorem flatten_pieces (isSeparator : Char → Bool) (cs : List Char) :
    (pieces isSeparator cs).flatten = cs.filter (!isSeparator ·) := by
  induction cs with
  | nil => rfl
  | cons c rest ih =>
    conv_lhs => unfold pieces
    by_cases hc : isSeparator c = true
    · rw [if_pos hc, ih, List.filter_cons_of_neg (by simp [hc])]
    · rw [if_neg hc, List.filter_cons_of_pos (by simp [hc]), ← ih]
      split
      · rename_i piece more d tail hpieces
        rw [hpieces]
        split <;> rfl
      · rfl

end Swatch.Text
