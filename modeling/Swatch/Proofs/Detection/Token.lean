import Mathlib.Data.List.Infix
import Swatch.Detection.Token
import Swatch.Proofs.Color.Language
import Swatch.Proofs.Stylesheet.Layout

/-!
Tokens stand in the text that they are read from: each of them is a beginning of the text at its
place, and no token is empty.
-/

namespace Swatch

open Text

/-- A token that a text begins with. -/
def Begins (token cs : List Char) : Prop :=
  token ≠ [] ∧ token <+: cs

def StandsAt (cs token : List Char) (start : Nat) : Prop :=
  Begins token (cs.drop start)

namespace StandsAt

variable {cs token : List Char} {start : Nat}

theorem length_pos (h : StandsAt cs token start) : 0 < token.length :=
  List.length_pos_iff.mpr h.1

theorem le_length (h : StandsAt cs token start) : start + token.length ≤ cs.length := by
  have hle := h.2.length_le
  have hpos := h.length_pos
  rw [List.length_drop] at hle
  omega

theorem take_eq (h : StandsAt cs token start) : (cs.drop start).take token.length = token :=
  (List.prefix_iff_eq_take.mp h.2).symm

/-- A token in a piece of a text. -/
theorem within {offset : Nat} {value : List Char} (hvalue : value <+: cs.drop offset)
    (h : StandsAt value token start) : StandsAt cs token (offset + start) := by
  refine ⟨h.1, ?_⟩
  rw [← List.drop_drop]
  exact h.2.trans (List.IsPrefix.drop hvalue start)

end StandsAt

/-- Tokens found in a text stand in it, if reading one finds what the text there begins with. -/
theorem standsAt_of_mem_hits {α : Type} {read : Recogniser α} {spelling : α → List Char}
    (hread : ∀ {before cs value after}, read before cs = some (value, after) →
      Begins (spelling value) cs)
    {cs : List Char} {hit : Hit α} (hmem : hit ∈ hits read cs) :
    StandsAt cs (spelling hit.value) hit.start := by
  obtain ⟨before, after, hhit⟩ := exists_of_mem_hits hmem
  exact hread hhit

namespace CustomProperty

/-- A custom property stands where it starts, by its name. -/
theorem standsAt_of_mem_all {cs : List Char} {p : CustomProperty} (hmem : p ∈ all cs) :
    StandsAt cs p.name.toList p.start := by
  obtain ⟨front, gap, rest, h⟩ := exists_standsIn hmem
  exact ⟨h.isPropertyName.ne_nil, _, h.drop_start.symm⟩

end CustomProperty

namespace Token

theorem between_append (token after : List Char) : between (token ++ after) after = token := by
  rw [between, List.length_append, Nat.add_sub_cancel, List.take_left]

theorem begins_between {cs after : List Char} (h : Follows after cs) :
    Begins (between cs after) cs := by
  refine ⟨fun hnil => ?_, List.take_prefix _ _⟩
  have hlt := h.length_lt
  have hlength := congrArg List.length hnil
  rw [between, List.length_take, List.length_nil] at hlength
  omega

theorem begins_of_hex? {before : Option Char} {cs token after : List Char}
    (h : hex? before cs = some (token, after)) : Begins token cs := by
  unfold hex? at h
  split at h
  · rename_i rest
    have hspan := span_eq_append isWord rest
    dsimp only at h
    split at h
    · cases h
      refine ⟨List.cons_ne_nil _ _, (rest.span isWord).2, ?_⟩
      rw [List.cons_append, hspan]
    · cases h
  · cases h

theorem follows_of_functionHead? {cs name body : List Char}
    (h : functionHead? cs = some (name, body)) : Follows body cs := by
  simp only [functionHead?, Option.bind_eq_bind, Option.bind_eq_some_iff] at h
  obtain ⟨rest, hrest, h⟩ := h
  have hsuffix : rest <:+ cs := by
    rw [Option.orElse_eq_or] at hrest
    rcases Option.or_eq_some_iff.mp hrest with hrgb | ⟨-, hhsl⟩
    · exact suffix_of_afterFolded? hrgb
    · exact suffix_of_afterFolded? hhsl
  split at h
  · rename_i body' hopen
    cases h
    have hunmarked : '(' :: body <:+ rest := by
      split at hopen
      · rename_i c tail
        split at hopen
        · exact hopen ▸ List.suffix_cons c tail
        · exact hopen ▸ List.suffix_refl _
      · cases hopen
    exact (follows_cons '(' body).of_suffix_left (hunmarked.trans hsuffix)
  · cases h

theorem begins_of_function? {before : Option Char} {cs token after : List Char}
    (h : function? before cs = some (token, after)) : Begins token cs := by
  unfold function? at h
  split at h
  · simp only [Option.bind_eq_bind, Option.bind_eq_some_iff] at h
    obtain ⟨⟨name, body⟩, hhead, h⟩ := h
    dsimp only at h
    split at h
    · rename_i tail hclose
      cases h
      have hsuffix : ')' :: after <:+ body := hclose ▸ List.dropWhile_suffix _
      have hbody := (List.suffix_cons ')' after).trans hsuffix
      exact begins_between ((follows_of_functionHead? hhead).of_suffix hbody)
    · cases h
  · cases h

theorem begins_of_compact? {before : Option Char} {cs token after : List Char}
    (h : compact? before cs = some (token, after)) : Begins token cs := by
  unfold compact? at h
  split at h
  · simp only [Option.map_eq_some_iff] at h
    obtain ⟨⟨x, rest⟩, hread, heq⟩ := h
    cases heq
    obtain ⟨token, rfl, hcompact⟩ := Color.exists_isCompact_of_read? hread
    obtain ⟨c, tail, rfl, -⟩ := hcompact.isTriple.exists_head
    rw [between_append]
    exact ⟨List.cons_ne_nil c tail, List.prefix_append _ _⟩
  · cases h

theorem follows_of_body? {cs name after : List Char} (h : Reference.body? cs = some (name, after)) :
    Follows after cs := by
  unfold Reference.body? at h
  split at h
  · rename_i name' rest hname
    obtain ⟨-, happend⟩ := CustomProperty.isPropertyName_of_name? hname
    split at h
    · rename_i tail hclose
      cases h
      have hrest : rest <:+ cs := by
        refine List.IsSuffix.trans ?_ (trimStart_suffix cs)
        exact ⟨name, happend.symm⟩
      have hclosed : ')' :: after <:+ rest := hclose ▸ trimStart_suffix rest
      exact (follows_cons ')' after).of_suffix_left (hclosed.trans hrest)
    · cases h
  · cases h

theorem begins_of_reference? {before : Option Char} {cs after : List Char}
    {found : List Char × List Char} (h : reference? before cs = some (found, after)) :
    Begins found.2 cs := by
  simp only [reference?, Option.map_eq_some_iff] at h
  obtain ⟨⟨name, rest⟩, hread, heq⟩ := h
  cases heq
  unfold Reference.read? at hread
  split at hread
  · rename_i hvar
    exact begins_between ((follows_of_body? hread).of_suffix_left (suffix_of_after? hvar))
  · cases hread

end Token

end Swatch
