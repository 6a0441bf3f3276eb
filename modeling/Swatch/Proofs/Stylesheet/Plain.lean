import Swatch.Proofs.Detection.Token
import Swatch.Proofs.Stylesheet.Path

/-!
Stylesheets without references. The values that a stylesheet is read for stand in its text, so where the
text has no reference they have none either. Main statement: such a stylesheet looks up nothing, and it
is read alike whatever the registry has.
-/

namespace Swatch

open Text

namespace Text

/-- What is read in a piece of a text stands in the text. -/
theorem infix_of_mem_hits {α : Type} {read : Recogniser α} (spelling : α → List Char)
    (hread : ∀ {before cs value after}, read before cs = some (value, after) → spelling value <:+: cs)
    {cs : List Char} {hit : Hit α} (hmem : hit ∈ hits read cs) : spelling hit.value <:+: cs := by
  obtain ⟨before, after, hhit⟩ := exists_of_mem_hits hmem
  exact (hread hhit).trans (List.drop_suffix _ _).isInfix

end Text

/-! ### The values of custom properties -/

namespace CustomProperty

theorem value_infix_of_mem_all {cs : List Char} {p : CustomProperty} (hmem : p ∈ all cs) :
    p.value.toList <:+: cs := by
  obtain ⟨front, gap, rest, h⟩ := exists_standsIn hmem
  refine ⟨front ++ (p.name.toList ++ gap), rest, ?_⟩
  simpa only [List.append_assoc] using h.eq.symm

end CustomProperty

/-! ### The values of rules for classes -/

namespace ClassRule

variable {cs value after : List Char}

theorem infix_of_value? (h : value? cs = some (value, after)) : value <:+: cs := by
  unfold value? at h
  split at h
  · rename_i rest hcolon
    have hrest : rest <:+ cs := (List.suffix_cons ':' rest).trans (hcolon ▸ trimStart_suffix cs)
    have hspan := span_eq_append (fun c => c != ';' && c != '\x7d') rest
    dsimp only at h
    split at h
    · split at h
      · cases h
      · cases h
        exact ((trim_isInfix _).trans ⟨[], _, hspan⟩).trans hrest.isInfix
    · cases h
  · cases h

theorem infix_of_property? {found : String × List Char} (h : property? cs = some (found, after)) :
    found.2 <:+: cs := by
  obtain ⟨property, -, hproperty⟩ := List.exists_of_findSome?_eq_some h
  simp only [Option.bind_eq_bind, Option.bind_eq_some_iff] at hproperty
  obtain ⟨rest, hrest, ⟨value, after'⟩, hvalue, heq⟩ := hproperty
  cases heq
  exact (infix_of_value? hvalue).trans (suffix_of_after? hrest).isInfix

theorem infix_of_firstProperty? {before : Option Char} {found : String × List Char}
    (h : firstProperty? before cs = some (found, after)) : found.2 <:+: cs := by
  induction cs generalizing before with
  | nil => cases h
  | cons c rest ih =>
    unfold firstProperty? at h
    split at h
    · rename_i found' hfound
      cases h
      split at hfound
      · exact infix_of_property? hfound
      · cases hfound
    · split at h
      · cases h
      · exact (ih h).trans (List.suffix_cons c rest).isInfix

theorem infix_of_read? {before : Option Char} {rule : ClassRule} (h : read? before cs = some (rule, after)) :
    rule.value <:+: cs := by
  unfold read? at h
  split at h
  · rename_i rest
    simp only [Option.bind_eq_bind, Option.bind_eq_some_iff] at h
    obtain ⟨⟨name, afterName⟩, hname, h⟩ := h
    dsimp only at h
    split at h
    · rename_i body hbody
      simp only [Option.bind_eq_some_iff] at h
      obtain ⟨⟨⟨property, value⟩, after'⟩, hfirst, heq⟩ := h
      cases heq
      have hsuffix : body <:+ '.' :: rest :=
        calc body <:+ '\x7b' :: body := List.suffix_cons _ _
          _ <:+ afterName := hbody ▸ trimStart_suffix afterName
          _ <:+ rest := (follows_of_run? hname).suffix
          _ <:+ '.' :: rest := List.suffix_cons _ _
      exact (infix_of_firstProperty? hfirst).trans hsuffix.isInfix
    · cases h
  · cases h

end ClassRule

/-! ### Reading -/

namespace Resolution

/-- A value without references settles at once. -/
theorem lookUps_eq_nil {value : List Char} (hvalue : Reference.referred value = []) (s : Scope)
    (visited : List String) : lookUps s visited value = [] := by
  have hpass : pass (expandNoting s visited) value = pure value := by
    refine pass_eq_pure fun segment hmem => ?_
    cases segment with
    | literal c => rfl
    | reference letters spelling =>
      have hname := Reference.mem_referred_iff.mpr ⟨letters, spelling, hmem, rfl⟩
      rw [hvalue] at hname
      cases hname
  rw [lookUps, noting_eq, maxPasses, settle, hpass]
  simp

end Resolution

namespace Sheet

variable {text : String}

theorem lookUps_eq_nil (htext : Reference.referred text.toList = []) (r : Registry) (source : String) :
    lookUps r source text = [] := by
  rw [lookUps, List.append_eq_nil_iff, List.flatMap_eq_nil_iff, List.flatMap_eq_nil_iff]
  refine ⟨fun d hd => ?_, fun value hvalue => ?_⟩
  · obtain ⟨p, hp, rfl⟩ := List.mem_map.mp hd
    refine Resolution.lookUps_eq_nil (Reference.referred_eq_nil_of_infix htext ?_) _ _
    exact CustomProperty.value_infix_of_mem_all hp
  · obtain ⟨hit, hhit, rfl⟩ := List.mem_map.mp (List.mem_filter.mp hvalue).1
    refine Resolution.lookUps_eq_nil (Reference.referred_eq_nil_of_infix htext ?_) _ _
    exact infix_of_mem_hits ClassRule.value ClassRule.infix_of_read? hhit

/-- What a registry has makes no difference to a stylesheet without references. -/
theorem read_eq_of_plain (htext : Reference.referred text.toList = []) (r r' : Registry) (source : String) :
    read r source text = read r' source text :=
  read_congr fun name hname => by
    rw [lookUps_eq_nil htext] at hname
    cases hname

end Sheet

end Swatch
