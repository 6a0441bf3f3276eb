import Mathlib.Data.List.Pairwise
import Swatch.Proofs.Text.Trimming
import Swatch.Stylesheet.CustomProperty

/-!
How declarations lie in their text, whatever else is in it: a name, white space with one colon, and a
value. Main statement: every declaration that is found lies so, and each one's value ends before the next
one's name begins.
-/

namespace Swatch

open Text

namespace CustomProperty

/-! ### The parts of a declaration -/

/-- Two hyphens and at least one more character of a name. -/
def IsPropertyName (name : List Char) : Prop :=
  ∃ word, name = '-' :: '-' :: word ∧ word ≠ [] ∧ ∀ c ∈ word, isName c = true

/-- What stands between a name and its value: one colon, and white space around it. -/
def IsGap (gap : List Char) : Prop :=
  ∃ before after, gap = before ++ ':' :: after ∧ (∀ c ∈ before, isBlank c = true) ∧
    ∀ c ∈ after, isBlank c = true

/-- A value in front of the rest of a text: no semicolon and no brace are in it, and no line of the text
that ends a value. -/
structure IsValue (value rest : List Char) : Prop where
  ne_nil : value ≠ []
  ne_delimiter : ∀ c ∈ value, c ≠ ';' ∧ c ≠ '\x7b' ∧ c ≠ '\x7d'
  endsValue_eq : ∀ front back, value = front ++ '\n' :: back → endsValue (back ++ rest) = false

section Parts

variable {cs name value after rest : List Char}

theorem IsPropertyName.ne_nil (h : IsPropertyName name) : name ≠ [] := by
  obtain ⟨word, rfl, -⟩ := h
  exact List.cons_ne_nil _ _

theorem IsGap.append {gap blanks : List Char} (h : IsGap gap) (hblanks : ∀ c ∈ blanks, isBlank c = true) :
    IsGap (gap ++ blanks) := by
  obtain ⟨before, behind, rfl, hbefore, hbehind⟩ := h
  refine ⟨before, behind ++ blanks, by simp, hbefore, fun c hc => ?_⟩
  exact (List.mem_append.mp hc).elim (hbehind c) (hblanks c)

theorem isValueStart_iff {c : Char} : isValueStart (c :: rest) = true ↔
    (c ≠ ';' ∧ c ≠ '\x7b' ∧ c ≠ '\x7d') ∧ (c = '\n' → endsValue rest = false) := by
  simp [isValueStart, and_assoc, imp_iff_not_or]

theorem IsValue.cons {c : Char} (hstart : isValueStart (c :: (value ++ rest)) = true)
    (hvalue : value = [] ∨ IsValue value rest) : IsValue (c :: value) rest := by
  obtain ⟨hc, hbreak⟩ := isValueStart_iff.mp hstart
  refine ⟨List.cons_ne_nil c value, List.forall_mem_cons.mpr ⟨hc, ?_⟩, fun front back heq => ?_⟩
  · rcases hvalue with rfl | hvalue
    · simp
    · exact hvalue.ne_delimiter
  · cases front with
    | nil =>
      obtain ⟨rfl, rfl⟩ := List.cons.inj heq
      exact hbreak rfl
    | cons d front =>
      obtain ⟨rfl, rfl⟩ := List.cons.inj heq
      rcases hvalue with hnil | hvalue
      · simp at hnil
      · exact hvalue.endsValue_eq front back rfl

/-- White space around a value may be left to the text around it. -/
theorem IsValue.trimmed {before behind : List Char} (h : IsValue (before ++ (value ++ behind)) rest)
    (hne : value ≠ []) : IsValue value (behind ++ rest) := by
  refine ⟨hne, fun c hc => h.ne_delimiter c (by simp [hc]), fun front back heq => ?_⟩
  have hends := h.endsValue_eq (before ++ front) (back ++ behind) (by simp [heq])
  rwa [List.append_assoc] at hends

end Parts

/-! ### Reading -/

section Reading

variable {cs name value after : List Char}

theorem isValue_of_terminated? (h : terminated? cs = some (value, after)) :
    ∃ rest, cs = value ++ rest ∧ IsValue value rest ∧ after <:+ rest := by
  induction cs generalizing value with
  | nil => cases h
  | cons c rest ih =>
    unfold terminated? at h
    split at h
    · rename_i hstart
      split at h
      · rename_i after' hsemicolon
        cases h
        have hsuffix : ';' :: after <:+ rest := hsemicolon ▸ trimStart_suffix rest
        exact ⟨rest, rfl, .cons hstart (.inl rfl), (List.suffix_cons ';' after).trans hsuffix⟩
      · obtain ⟨⟨value', after'⟩, hread, heq⟩ := Option.map_eq_some_iff.mp h
        cases heq
        obtain ⟨rest', rfl, hvalue, hsuffix⟩ := ih hread
        exact ⟨rest', rfl, .cons hstart (.inr hvalue), hsuffix⟩
    · cases h

theorem isValue_of_unterminated? (h : unterminated? cs = some (value, after)) :
    ∃ rest, cs = value ++ rest ∧ IsValue value rest ∧ after <:+ rest := by
  induction cs generalizing value with
  | nil => cases h
  | cons c rest ih =>
    unfold unterminated? at h
    dsimp only at h
    split at h
    · cases h
    · rename_i hc
      simp only [Bool.or_eq_true, beq_iff_eq, not_or] at hc
      obtain ⟨⟨⟨hsemicolon, hopen⟩, hclose⟩, hnewline⟩ := hc
      have hstart : isValueStart (c :: rest) = true :=
        isValueStart_iff.mpr ⟨⟨hsemicolon, hopen, hclose⟩, fun heq => absurd heq hnewline⟩
      split at h
      · cases h
        exact ⟨rest, rfl, .cons hstart (.inl rfl), List.dropWhile_suffix _⟩
      · obtain ⟨⟨value', after'⟩, hread, heq⟩ := Option.map_eq_some_iff.mp h
        cases heq
        obtain ⟨rest', rfl, hvalue, hsuffix⟩ := ih hread
        exact ⟨rest', rfl, .cons hstart (.inr hvalue), hsuffix⟩

theorem isValue_of_valueAt? (h : valueAt? cs = some (value, after)) :
    ∃ rest, cs = value ++ rest ∧ IsValue value rest ∧ after <:+ rest := by
  rw [valueAt?, Option.orElse_eq_or] at h
  rcases Option.or_eq_some_iff.mp h with hterminated | ⟨-, hunterminated⟩
  · exact isValue_of_terminated? hterminated
  · exact isValue_of_unterminated? hunterminated

theorem isValue_of_valueAfter? {blanks : Nat} (h : valueAfter? blanks cs = some (value, after)) :
    ∃ k ≤ blanks, ∃ rest, cs.drop k = value ++ rest ∧ IsValue value rest ∧ after <:+ rest := by
  induction blanks with
  | zero => exact ⟨0, Nat.le_refl 0, isValue_of_valueAt? h⟩
  | succ blanks ih =>
    rw [valueAfter?, Option.orElse_eq_or] at h
    rcases Option.or_eq_some_iff.mp h with hhere | ⟨-, hless⟩
    · exact ⟨blanks + 1, Nat.le_refl _, isValue_of_valueAt? hhere⟩
    · obtain ⟨k, hk, hread⟩ := ih hless
      exact ⟨k, Nat.le_succ_of_le hk, hread⟩

theorem isPropertyName_of_name? {rest : List Char} (h : name? cs = some (name, rest)) :
    IsPropertyName name ∧ cs = name ++ rest := by
  unfold name? at h
  split at h
  · obtain ⟨⟨word, after⟩, hrun, heq⟩ := Option.map_eq_some_iff.mp h
    cases heq
    obtain ⟨hne, rfl⟩ := run?_eq_append hrun
    exact ⟨⟨word, rfl, hne, forall_mem_of_run? hrun⟩, rfl⟩
  · cases h

/-- A name is read up to a colon or blanks in front of one. -/
theorem name?_append {blanks rest : List Char} (hname : IsPropertyName name)
    (hblanks : ∀ c ∈ blanks, isSpace c = true) :
    name? (name ++ (blanks ++ ':' :: rest)) = some (name, blanks ++ ':' :: rest) := by
  have hend : ∀ c ∈ (blanks ++ ':' :: rest).head?, isName c = false := by
    intro c hc
    cases blanks with
    | nil =>
      cases hc
      decide
    | cons d blanks =>
      cases hc
      exact isName_of_isBlank (isBlank_of_isSpace (hblanks c List.mem_cons_self))
  obtain ⟨word, rfl, hne, hword⟩ := hname
  rw [List.cons_append, List.cons_append, name?, run?_append hne hword hend]
  rfl

theorem exists_of_read? {before : Option Char} (h : read? before cs = some ((name, value), after)) :
    startsAfter isName before = true ∧ IsPropertyName name ∧ ∃ gap rest, IsGap gap ∧
      cs = name ++ (gap ++ (value ++ rest)) ∧ IsValue value rest ∧ after <:+ rest := by
  unfold read? at h
  split at h
  · rename_i hbefore
    split at h
    · rename_i name' afterName hname
      split at h
      · rename_i tail hcolon
        obtain ⟨⟨value', after'⟩, hvalue, heq⟩ := Option.map_eq_some_iff.mp h
        cases heq
        obtain ⟨hpropertyName, rfl⟩ := isPropertyName_of_name? hname
        obtain ⟨blanks, hblanks, hafterName⟩ := exists_blanks_append afterName
        obtain ⟨k, hk, rest, hdrop, hisValue, hsuffix⟩ := isValue_of_valueAfter? hvalue
        have htake : ∀ c ∈ tail.take k, isBlank c = true := by
          intro c hc
          have hbegins : tail.take k <+: tail.takeWhile isBlank :=
            List.prefix_of_prefix_length_le (List.take_prefix k tail) (List.takeWhile_prefix _)
              ((List.length_take_le k tail).trans hk)
          exact List.mem_takeWhile_imp (hbegins.subset hc)
        refine ⟨hbefore, hpropertyName, blanks ++ ':' :: tail.take k, rest,
          ⟨blanks, tail.take k, rfl, hblanks, htake⟩, ?_, hisValue, hsuffix⟩
        rw [hcolon, ← List.take_append_drop k tail, hdrop] at hafterName
        rw [hafterName]
        simp
      · cases h
    · cases h
  · cases h

end Reading

/-! ### Whole texts -/

/-- How a declaration stands in a text, by what is in front of it, between its name and its value, and
behind it. -/
structure StandsIn (p : CustomProperty) (cs front gap rest : List Char) : Prop where
  eq : cs = front ++ (p.name.toList ++ (gap ++ (p.value.toList ++ rest)))
  start_eq : p.start = front.length
  stop_eq : p.stop = p.start + p.name.toList.length
  isName_before : ∀ c ∈ front.getLast?, isName c = false
  isPropertyName : IsPropertyName p.name.toList
  isGap : IsGap gap
  isValue : IsValue p.value.toList rest
  isBlank_head : ∀ c ∈ p.value.toList.head?, isBlank c = false
  isBlank_getLast : ∀ c ∈ p.value.toList.getLast?, isBlank c = false

/-- Where the value of a declaration begins: at the first character behind the colon that is no white
space. -/
def valueStart (p : CustomProperty) (cs : List Char) : Nat :=
  cs.length - (trimStart (trimStart (cs.drop p.stop)).tail).length

def valueStop (p : CustomProperty) (cs : List Char) : Nat :=
  p.valueStart cs + p.value.toList.length

namespace StandsIn

variable {p : CustomProperty} {cs front gap rest : List Char}

theorem drop_start (h : p.StandsIn cs front gap rest) :
    cs.drop p.start = p.name.toList ++ (gap ++ (p.value.toList ++ rest)) := by
  rw [h.start_eq, h.eq, List.drop_left]

theorem drop_stop (h : p.StandsIn cs front gap rest) : cs.drop p.stop = gap ++ (p.value.toList ++ rest) := by
  rw [h.stop_eq, h.start_eq, ← List.length_append, h.eq, ← List.append_assoc]
  exact List.drop_left

theorem length_eq (h : p.StandsIn cs front gap rest) :
    cs.length = p.stop + gap.length + p.value.toList.length + rest.length := by
  rw [h.stop_eq, h.start_eq, h.eq]
  simp only [List.length_append]
  omega

theorem valueStart_eq (h : p.StandsIn cs front gap rest) : p.valueStart cs = p.stop + gap.length := by
  have hlength := h.length_eq
  obtain ⟨before, after, hgap, hbefore, hafter⟩ := h.isGap
  have hhead : ∀ c ∈ (p.value.toList ++ rest).head?, isBlank c = false := by
    rw [List.head?_append_of_ne_nil _ h.isValue.ne_nil]
    exact h.isBlank_head
  have hcolon : trimStart (cs.drop p.stop) = ':' :: (after ++ (p.value.toList ++ rest)) := by
    rw [h.drop_stop, hgap, List.append_assoc]
    exact trimStart_append hbefore (by simp; decide)
  rw [valueStart, hcolon, List.tail_cons, trimStart_append hafter hhead, List.length_append]
  omega

theorem valueStop_eq (h : p.StandsIn cs front gap rest) : p.valueStop cs + rest.length = cs.length := by
  rw [valueStop, h.valueStart_eq, h.length_eq]

end StandsIn

theorem of_ofHit? {hit : Hit (List Char × List Char)} {p : CustomProperty} (hp : ofHit? hit = some p) :
    p.name.toList = hit.value.1 ∧ p.value.toList = trim hit.value.2 ∧ trim hit.value.2 ≠ [] ∧
      p.start = hit.start ∧ p.stop = hit.start + hit.value.1.length := by
  unfold ofHit? at hp
  dsimp only at hp
  split at hp
  · cases hp
  · rename_i hne
    cases hp
    exact ⟨String.toList_ofList, String.toList_ofList, List.isEmpty_iff.not.mp hne, rfl, rfl⟩

/-- What is declared at a place stands there, and its value ends where or before the reading ended. -/
theorem exists_standsIn_of_hit {cs : List Char} {hit : Hit (List Char × List Char)} {p : CustomProperty}
    (hhit : hit ∈ hits read? cs) (hp : ofHit? hit = some p) :
    p.start = hit.start ∧ (∃ front gap rest, p.StandsIn cs front gap rest) ∧ p.valueStop cs ≤ hit.stop := by
  obtain ⟨hpname, hpvalue, hne, hpstart, hpstop⟩ := of_ofHit? hp
  obtain ⟨after, hread, hstop⟩ := read_of_mem_hits hhit
  obtain ⟨hbefore, hname, gap, rest, hgap, hdrop, hvalue, hsuffix⟩ := exists_of_read? hread
  obtain ⟨lead, trail, hlead, -, htrim⟩ := exists_trim_append hit.value.2
  rw [← hpvalue] at htrim hne
  rw [htrim] at hdrop hvalue
  rw [← hpname] at hdrop hname hpstop
  have hstart : hit.start ≤ cs.length := by
    by_contra hlt
    rw [List.drop_eq_nil_of_le (by omega)] at hdrop
    simp [hne] at hdrop
  have hstands : p.StandsIn cs (cs.take hit.start) (gap ++ lead) (trail ++ rest) := by
    refine ⟨?_, ?_, ?_, fun c hc => ?_, hname, hgap.append hlead, hvalue.trimmed hne, ?_, ?_⟩
    · conv_lhs => rw [← List.take_append_drop hit.start cs, hdrop]
      simp only [List.append_assoc]
    · rw [hpstart, List.length_take_of_le hstart]
    · rw [hpstop, hpstart]
    · rw [Option.mem_def.mp hc] at hbefore
      simpa [startsAfter] using hbefore
    · rw [hpvalue]
      exact isBlank_head?_trim hit.value.2
    · rw [hpvalue]
      exact isBlank_getLast?_trim hit.value.2
  refine ⟨hpstart, ⟨_, _, _, hstands⟩, ?_⟩
  have hend := hstands.valueStop_eq
  have hle := hsuffix.length_le
  rw [List.length_append] at hend
  rw [List.length_drop] at hstop
  omega

theorem exists_standsIn {cs : List Char} {p : CustomProperty} (hmem : p ∈ all cs) :
    ∃ front gap rest, p.StandsIn cs front gap rest := by
  obtain ⟨hit, hhit, hp⟩ := List.mem_filterMap.mp hmem
  exact (exists_standsIn_of_hit hhit hp).2.1

/-- Where the parts of a declaration are, by the offsets of the text. -/
structure IsPlaced (p : CustomProperty) (cs : List Char) : Prop where
  name_eq : (cs.drop p.start).take (p.stop - p.start) = p.name.toList
  isPropertyName : IsPropertyName p.name.toList
  isName_before : ∀ c ∈ (cs.take p.start).getLast?, isName c = false
  isGap : IsGap ((cs.drop p.stop).take (p.valueStart cs - p.stop))
  value_eq : (cs.drop (p.valueStart cs)).take p.value.toList.length = p.value.toList
  value_ne_nil : p.value.toList ≠ []
  ne_delimiter : ∀ c ∈ p.value.toList, c ≠ ';' ∧ c ≠ '\x7b' ∧ c ≠ '\x7d'
  isBlank_head : ∀ c ∈ p.value.toList.head?, isBlank c = false
  isBlank_getLast : ∀ c ∈ p.value.toList.getLast?, isBlank c = false
  start_lt_stop : p.start < p.stop
  stop_lt_valueStart : p.stop < p.valueStart cs
  valueStop_le : p.valueStop cs ≤ cs.length

theorem StandsIn.isPlaced {p : CustomProperty} {cs front gap rest : List Char}
    (h : p.StandsIn cs front gap rest) : p.IsPlaced cs := by
  have hvalueStart := h.valueStart_eq
  have hvalueStop := h.valueStop_eq
  have hvalue : cs.drop (p.valueStart cs) = p.value.toList ++ rest := by
    rw [hvalueStart, ← List.drop_drop, h.drop_stop, List.drop_left]
  have hname := List.length_pos_iff.mpr h.isPropertyName.ne_nil
  have hgap : 0 < gap.length := by
    obtain ⟨before, after, rfl, -⟩ := h.isGap
    rw [List.length_append, List.length_cons]
    omega
  refine ⟨?_, h.isPropertyName, ?_, ?_, ?_, h.isValue.ne_nil, h.isValue.ne_delimiter, h.isBlank_head,
    h.isBlank_getLast, ?_, ?_, ?_⟩
  · rw [h.drop_start, h.stop_eq, Nat.add_sub_cancel_left, List.take_left]
  · rw [h.start_eq, h.eq, List.take_left]
    exact h.isName_before
  · rw [h.drop_stop, hvalueStart, Nat.add_sub_cancel_left, List.take_left]
    exact h.isGap
  · rw [hvalue, List.take_left]
  · rw [h.stop_eq]
    omega
  · omega
  · omega

/-- Every declaration that is found in a text has its parts in their places there, and the declarations
lie one behind the other. -/
theorem isPlaced_all (cs : List Char) :
    (∀ p ∈ all cs, p.IsPlaced cs) ∧
      (all cs).Pairwise fun p q => p.start < q.start ∧ p.valueStop cs ≤ q.start := by
  constructor
  · intro p hp
    obtain ⟨front, gap, rest, hstands⟩ := exists_standsIn hp
    exact hstands.isPlaced
  · rw [all, List.pairwise_filterMap]
    refine (pairwise_hits read? cs).imp_of_mem fun ha hb hle p hp q hq => ?_
    obtain ⟨-, ⟨front, gap, rest, hstands⟩, hstop⟩ := exists_standsIn_of_hit ha hp
    obtain ⟨hstart, -⟩ := exists_standsIn_of_hit hb hq
    have hplaced := hstands.isPlaced
    have hname := hplaced.start_lt_stop
    have hvalue := hplaced.stop_lt_valueStart
    have hlength : p.valueStart cs ≤ p.valueStop cs := Nat.le_add_right _ _
    constructor <;> omega

theorem isPlaced_all_halfTyped :
    all "--x: ;\x7d--a :\n  1px--b: 2px; c --d:: 3\n\x7d".toList =
        [⟨"--a", "1px--b: 2px", 7, 10⟩, ⟨"--d", ": 3", 30, 33⟩] ∧
      IsPlaced ⟨"--a", "1px--b: 2px", 7, 10⟩ "--x: ;\x7d--a :\n  1px--b: 2px; c --d:: 3\n\x7d".toList ∧
      IsPlaced ⟨"--d", ": 3", 30, 33⟩ "--x: ;\x7d--a :\n  1px--b: 2px; c --d:: 3\n\x7d".toList ∧
      valueStop ⟨"--a", "1px--b: 2px", 7, 10⟩ "--x: ;\x7d--a :\n  1px--b: 2px; c --d:: 3\n\x7d".toList ≤ 30 := by
  have hall : all "--x: ;\x7d--a :\n  1px--b: 2px; c --d:: 3\n\x7d".toList =
      [⟨"--a", "1px--b: 2px", 7, 10⟩, ⟨"--d", ": 3", 30, 33⟩] := by
    decide +kernel
  obtain ⟨hplaced, hordered⟩ := isPlaced_all "--x: ;\x7d--a :\n  1px--b: 2px; c --d:: 3\n\x7d".toList
  rw [hall] at hplaced hordered
  refine ⟨hall, hplaced _ List.mem_cons_self, hplaced _ (by simp), ?_⟩
  exact ((List.pairwise_cons.mp hordered).1 _ List.mem_cons_self).2

end CustomProperty

end Swatch
