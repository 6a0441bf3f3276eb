import Swatch.Proofs.Registry.Replacement
import Swatch.Proofs.Stylesheet.Enclosure

/-!
How the rules for classes lie in their text, and the blocks between the brace of such a rule and the
colour that is found for it. Main statement: a colour is in the block of its own rule exactly if no brace
opens between the two; else it belongs to a block further inside, and is found for the class all the same.
-/

namespace Swatch

open Text

namespace Selector

/-- Behind an open brace, with no closing one, it stays open below the braces that open later. -/
theorem exists_openBraces_append (front : List Char) {passed : List Char} (hclose : '\x7d' ∉ passed) :
    ∃ inner, openBraces (front ++ '\x7b' :: passed) = inner ++ front.length :: openBraces front ∧
      (inner = [] ↔ '\x7b' ∉ passed) ∧ ∀ place ∈ inner, front.length < place := by
  induction passed using List.reverseRecOn with
  | nil =>
    refine ⟨[], ?_, by simp, by simp⟩
    rw [openBraces_concat, afterBrace, if_pos rfl]
    rfl
  | append_singleton passed c ih =>
    rw [List.mem_append, List.mem_singleton, not_or] at hclose
    obtain ⟨inner, hstack, hnone, hlater⟩ := ih hclose.1
    have hconcat := openBraces_concat (front ++ '\x7b' :: passed) c
    rw [List.append_assoc, List.cons_append, hstack, afterBrace] at hconcat
    by_cases hopen : c = '\x7b'
    · rw [if_pos hopen] at hconcat
      refine ⟨_ :: inner, hconcat, by simp [hopen], List.forall_mem_cons.mpr ⟨?_, hlater⟩⟩
      rw [List.length_append, List.length_cons]
      omega
    · rw [if_neg hopen, if_neg (Ne.symm hclose.2)] at hconcat
      refine ⟨inner, hconcat, ?_, hlater⟩
      rw [hnone, List.mem_append, List.mem_singleton, not_or]
      exact (and_iff_left (Ne.symm hopen)).symm

end Selector

namespace ClassRule

open Selector (openBraces beforeOpenBrace? exists_openBraces_append)

/-! ### The place of a rule -/

/-- How a rule stands in a text: a class and the brace that follows it, what is passed over behind the
brace, and the property with its value. No closing brace is passed over, and no colour property. -/
structure StandsIn (rule : ClassRule) (cs front gap passed rest : List Char) : Prop where
  eq : cs = front ++
    '.' :: (rule.name ++ (gap ++ '\x7b' :: (passed ++ (rule.property.toList ++ rest))))
  name_ne_nil : rule.name ≠ []
  isName_name : ∀ c ∈ rule.name, c = '.' ∨ isName c = true
  isBlank_gap : ∀ c ∈ gap, isBlank c = true
  close_notMem : '\x7d' ∉ passed
  isName_before : ∀ c ∈ passed.getLast?, isName c = false
  property_mem : rule.property ∈ properties
  value_eq : ∃ after, property? (rule.property.toList ++ rest) = some ((rule.property, rule.value), after)
  first : ∀ before more, passed = before ++ more → more ≠ [] →
    (∀ c ∈ before.getLast?, isName c = false) →
      property? (more ++ (rule.property.toList ++ rest)) = none

/-- The place of the brace that follows the class. -/
def brace (rule : ClassRule) (front gap : List Char) : Nat :=
  (front ++ '.' :: (rule.name ++ gap)).length

/-- The place of the property. -/
def place (rule : ClassRule) (front gap passed : List Char) : Nat :=
  (front ++ '.' :: (rule.name ++ (gap ++ '\x7b' :: passed))).length

section Reading

variable {cs after value : List Char} {property : String} {before : Option Char}

theorem exists_of_property? (h : property? cs = some ((property, value), after)) :
    property ∈ properties ∧ ∃ rest, cs = property.toList ++ rest := by
  obtain ⟨word, hword, hread⟩ := List.exists_of_findSome?_eq_some h
  simp only [Option.bind_eq_bind, Option.bind_eq_some_iff] at hread
  obtain ⟨rest, hrest, _, -, heq⟩ := hread
  cases heq
  exact ⟨hword, rest, (List.isPrefixOf?_eq_some_iff_append_eq.mp hrest).symm⟩

/-- What is passed over before the first property. The character in front of the text counts as long as
nothing has been passed over. -/
theorem exists_of_firstProperty? (h : firstProperty? before cs = some ((property, value), after)) :
    ∃ passed rest, cs = passed ++ (property.toList ++ rest) ∧ property ∈ properties ∧
      '\x7d' ∉ passed ∧ startsAfter isName (passed.getLast?.or before) = true ∧
      property? (property.toList ++ rest) = some ((property, value), after) ∧
      ∀ front more, passed = front ++ more → more ≠ [] →
        startsAfter isName (front.getLast?.or before) = true →
        property? (more ++ (property.toList ++ rest)) = none := by
  induction cs generalizing before with
  | nil => cases h
  | cons c cs ih =>
    unfold firstProperty? at h
    split at h
    · rename_i found hfound
      cases h
      split at hfound
      · rename_i hbefore
        obtain ⟨hmem, rest, hrest⟩ := exists_of_property? hfound
        refine ⟨[], rest, hrest, hmem, by simp, by simpa using hbefore, hrest ▸ hfound, ?_⟩
        intro front more hnil hne
        exact absurd (List.append_eq_nil_iff.mp hnil.symm).2 hne
      · cases hfound
    · rename_i hnone
      split at h
      · cases h
      · rename_i hc
        obtain ⟨passed, rest, rfl, hmem, hclose, hbefore, hread, hfirst⟩ := ih h
        refine ⟨c :: passed, rest, rfl, hmem, ?_, ?_, hread, ?_⟩
        · rw [List.mem_cons, not_or]
          exact ⟨fun heq => hc (beq_iff_eq.mpr heq.symm), hclose⟩
        · rwa [getLast?_cons_or]
        · intro front more heq hne hstarts
          cases front with
          | nil =>
            obtain rfl : c :: passed = more := heq
            rw [if_pos (by simpa using hstarts)] at hnone
            exact hnone
          | cons d front =>
            obtain ⟨rfl, rfl⟩ := List.cons.inj heq
            exact hfirst front more rfl hne (by rwa [getLast?_cons_or] at hstarts)

theorem exists_standsIn_of_read? {rule : ClassRule} (h : read? before cs = some (rule, after))
    (front : List Char) : ∃ gap passed rest, rule.StandsIn (front ++ cs) front gap passed rest := by
  unfold read? at h
  split at h
  · simp only [Option.bind_eq_bind, Option.bind_eq_some_iff] at h
    obtain ⟨⟨name, afterName⟩, hname, h⟩ := h
    dsimp only at h
    split at h
    · rename_i body hbody
      simp only [Option.bind_eq_some_iff] at h
      obtain ⟨⟨⟨property, value⟩, after'⟩, hproperty, heq⟩ := h
      cases heq
      obtain ⟨hne, rfl⟩ := run?_eq_append hname
      obtain ⟨gap, hgap, hafterName⟩ := exists_blanks_append afterName
      obtain ⟨passed, rest, rfl, hmem, hclose, hbefore, hread, hfirst⟩ := exists_of_firstProperty? hproperty
      have hbrace (cs : List Char) : startsAfter isName (cs.getLast?.or (some '\x7b')) = true ↔
          ∀ c ∈ cs.getLast?, isName c = false := by
        cases cs.getLast? with
        | none => exact iff_of_true (by decide) (by simp)
        | some c => simp [startsAfter]
      refine ⟨gap, passed, rest, ?_⟩
      exact {
        eq := by rw [hafterName, hbody]
        name_ne_nil := hne
        isName_name := by simpa using forall_mem_of_run? hname
        isBlank_gap := hgap
        close_notMem := hclose
        isName_before := (hbrace passed).mp hbefore
        property_mem := hmem
        value_eq := ⟨_, hread⟩
        first := fun before more heq hne hstarts => hfirst before more heq hne ((hbrace before).mpr hstarts) }
    · cases h
  · cases h

end Reading

/-! ### The block around a colour -/

section Blocks

variable {rule : ClassRule} {cs front gap passed rest : List Char}

theorem StandsIn.take_place (h : rule.StandsIn cs front gap passed rest) :
    cs.take (rule.place front gap passed) =
      front ++ '.' :: (rule.name ++ gap) ++ '\x7b' :: passed := by
  have hcs : cs = front ++ '.' :: (rule.name ++ (gap ++ '\x7b' :: passed)) ++
      (rule.property.toList ++ rest) := by
    rw [h.eq]
    simp
  rw [hcs, place, List.take_left]
  simp

/-- The braces that are open at the property of a rule: those that opened since the rule's own, then that
one, then what is around the rule. -/
theorem StandsIn.exists_openBraces (h : rule.StandsIn cs front gap passed rest) :
    ∃ inner, openBraces (cs.take (rule.place front gap passed)) =
        inner ++ rule.brace front gap :: openBraces (front ++ '.' :: (rule.name ++ gap)) ∧
      (inner = [] ↔ '\x7b' ∉ passed) ∧ ∀ place ∈ inner, rule.brace front gap < place := by
  rw [h.take_place]
  exact exists_openBraces_append _ h.close_notMem

/-- The brace of a rule is the innermost one that is open at its property if none opened since. -/
theorem StandsIn.exists_innermost (h : rule.StandsIn cs front gap passed rest) :
    ∃ innermost, (openBraces (cs.take (rule.place front gap passed))).head? = some innermost ∧
      rule.brace front gap ≤ innermost ∧ (innermost = rule.brace front gap ↔ '\x7b' ∉ passed) := by
  obtain ⟨inner, hstack, hnone, hlater⟩ := h.exists_openBraces
  rw [hstack]
  cases inner with
  | nil => exact ⟨_, rfl, le_rfl, iff_of_true rfl (hnone.mp rfl)⟩
  | cons innermost inner =>
    have hlt := hlater innermost List.mem_cons_self
    refine ⟨innermost, rfl, hlt.le, iff_of_false hlt.ne' fun hopen => ?_⟩
    exact List.cons_ne_nil _ _ (hnone.mpr hopen)

end Blocks

end ClassRule

namespace Sheet

open Selector (openBraces beforeOpenBrace?)

variable {r : Registry} {source text : String} {c : ClassColor}

/-- Every colour of a class comes from a rule in the text. -/
theorem exists_standsIn_of_mem_classes (hc : c ∈ (read r source text).value.classes) :
    ∃ hit ∈ Text.hits ClassRule.read? text.toList,
      hit.value = ⟨c.name.toList, c.property, c.value.toList⟩ ∧
        ((LineIndex.ofChars text.toList).positionAt hit.start).line = c.line ∧
          ∃ gap passed rest,
            hit.value.StandsIn text.toList (text.toList.take hit.start) gap passed rest := by
  rw [classes_eq] at hc
  obtain ⟨hit, hhit, hcolor⟩ := List.mem_filterMap.mp hc
  obtain ⟨hrule, hline⟩ := of_classColor? hcolor
  obtain ⟨after, hread, -⟩ := read_of_mem_hits hhit
  refine ⟨hit, hhit, hrule, hline, ?_⟩
  have hstands := ClassRule.exists_standsIn_of_read? hread (text.toList.take hit.start)
  rwa [List.take_append_drop] at hstands

/-- The colour of a class is found behind the brace that follows the class. The innermost brace that is
open there is this one exactly if none opens between it and the property; else it is one further inside,
and the colour is found for the class all the same. -/
theorem innermost_eq_brace_iff (hc : c ∈ (read r source text).value.classes) :
    ∃ hit ∈ Text.hits ClassRule.read? text.toList,
      hit.value = ⟨c.name.toList, c.property, c.value.toList⟩ ∧
        ((LineIndex.ofChars text.toList).positionAt hit.start).line = c.line ∧
          ∃ gap passed rest innermost,
            let front := text.toList.take hit.start
            let upToProperty := text.toList.take (hit.value.place front gap passed)
            hit.value.StandsIn text.toList front gap passed rest ∧
              (openBraces upToProperty).head? = some innermost ∧
              beforeOpenBrace? 0 upToProperty.reverse = some (text.toList.take innermost).reverse ∧
              hit.value.brace front gap ≤ innermost ∧
              (innermost = hit.value.brace front gap ↔ '\x7b' ∉ passed) := by
  obtain ⟨hit, hhit, hrule, hline, gap, passed, rest, hstands⟩ := exists_standsIn_of_mem_classes hc
  obtain ⟨innermost, htop, hle, hown⟩ := hstands.exists_innermost
  exact ⟨hit, hhit, hrule, hline, gap, passed, rest, innermost, hstands, htop,
    Selector.beforeOpenBrace?_of_head? htop, hle, hown⟩

theorem innermost_eq_brace_iff_badge :
    let text := ".card\x7bcolor:#fff\x7d @media print\x7b.badge\x7bcolor:#000\x7d\x7d"
    let c : ClassColor := ⟨"badge", "color", "#000", "a.css", 0, ".badge", some "rgb(0, 0, 0)"⟩
    c ∈ (read ∅ "a.css" text).value.classes ∧
      ∃ rule front gap passed rest innermost,
        rule = (⟨"badge".toList, "color", "#000".toList⟩ : ClassRule) ∧
          rule.StandsIn text.toList front gap passed rest ∧
            (openBraces (text.toList.take (rule.place front gap passed))).head? = some innermost ∧
              (innermost = rule.brace front gap ↔ '\x7b' ∉ passed) := by
  intro text c
  have hc : c ∈ (read ∅ "a.css" text).value.classes := by decide +kernel
  obtain ⟨hit, -, hrule, -, gap, passed, rest, innermost, hstands, htop, -, -, hown⟩ :=
    innermost_eq_brace_iff hc
  exact ⟨hc, hit.value, _, gap, passed, rest, innermost, hrule, hstands, htop, hown⟩

/-- A colour in a block inside the rule for a class, which has none of its own. -/
theorem mem_classes_of_nestedBlock :
    let text := ".card\x7ba\x7bcolor:#fff\x7d\x7d"
    let rule : ClassRule := ⟨"card".toList, "color", "#fff".toList⟩
    let c : ClassColor := ⟨"card", "color", "#fff", "a.css", 0, ".card", some "rgb(255, 255, 255)"⟩
    c ∈ (read ∅ "a.css" text).value.classes ∧
      rule.StandsIn text.toList [] [] "a\x7b".toList ":#fff\x7d\x7d".toList ∧
      rule.brace [] [] = 5 ∧ rule.place [] [] "a\x7b".toList = 8 ∧
      (openBraces (text.toList.take 8)).head? = some 7 ∧
      Selector.enclosing text.toList 8 = "a" := by
  intro text rule c
  refine ⟨by decide +kernel, ?_, by decide, by decide, by decide +kernel, by decide +kernel⟩
  have hname : ∀ c ∈ rule.name, c = '.' ∨ isName c = true := by simp [rule, isName, isWord]
  refine ⟨by decide +kernel, by decide, hname, by simp, by decide, by simp [isName, isWord], by decide,
    ⟨['\x7d'], by decide +kernel⟩, fun before more heq hne _ => ?_⟩
  -- The property begins at neither of the two characters that are passed over.
  cases before with
  | nil =>
    obtain rfl : "a\x7b".toList = more := heq
    decide +kernel
  | cons c before =>
    have htail : ['\x7b'] = before ++ more := (List.cons.inj heq).2
    cases before with
    | nil =>
      obtain rfl : ['\x7b'] = more := htail
      decide +kernel
    | cons d before =>
      have hnil : [] = before ++ more := (List.cons.inj htail).2
      exact absurd (List.append_eq_nil_iff.mp hnil.symm).2 hne

end Sheet

end Swatch
