import Swatch.Proofs.Stylesheet.LookUp
import Swatch.Proofs.Stylesheet.Segment

/-!
Following references. From a value, references lead to the written values of what the names stand for,
and from there on. Main statement: whatever a value resolves to refers only to names that it leads to,
and of those that have a declaration only to such as lead back to themselves. This takes that no value
on the way has a hyphen outside its references; then no reference comes about that was not written.
-/

namespace Swatch

open Reference (referred outside segments)

namespace Scope

variable {s : Scope} {value target : List Char} {name written : String} {path : List String}

/-- Following references from a value: the names that are followed one after the other, and the value
that they lead to. -/
inductive Path (s : Scope) : List Char → List String → List Char → Prop where
  | nil (value : List Char) : s.Path value [] value
  | cons {value target : List Char} {name written : String} {path : List String}
      (hname : name ∈ referred value) (hwritten : s.valueOf? name = some written)
      (hpath : s.Path written.toList path target) : s.Path value (name :: path) target

/-- No value that references lead to has a hyphen outside its own references. -/
def Unhyphenated (s : Scope) (value : List Char) : Prop :=
  ∀ path target, s.Path value path target → '-' ∉ outside target

/-- References never lead to a name again that was followed already. -/
def Acyclic (s : Scope) (value : List Char) : Prop :=
  ∀ path target, s.Path value path target → path.Nodup

/-- A value refers to a name, or references lead from it to one that does. -/
def LeadsTo (s : Scope) (value : List Char) (name : String) : Prop :=
  ∃ path target, s.Path value path target ∧ name ∈ referred target

def LeadsBack (s : Scope) (name : String) : Prop :=
  ∃ written, s.valueOf? name = some written ∧ s.LeadsTo written.toList name

theorem leadsTo_of_mem (hname : name ∈ referred value) : s.LeadsTo value name :=
  ⟨[], value, .nil value, hname⟩

theorem LeadsTo.cons {name' : String} (hname : name ∈ referred value)
    (hwritten : s.valueOf? name = some written) (h : s.LeadsTo written.toList name') :
    s.LeadsTo value name' := by
  obtain ⟨path, target, hpath, hname'⟩ := h
  exact ⟨name :: path, target, .cons hname hwritten hpath, hname'⟩

theorem Path.trans {middle : List Char} {path' : List String} (h : s.Path value path middle)
    (h' : s.Path middle path' target) : s.Path value (path ++ path') target := by
  induction h with
  | nil _ => exact h'
  | cons hname hwritten _ ih => exact .cons hname hwritten (ih h')

theorem LeadsTo.trans {name' : String} (h : s.LeadsTo value name) (hwritten : s.valueOf? name = some written)
    (h' : s.LeadsTo written.toList name') : s.LeadsTo value name' := by
  obtain ⟨path, middle, hpath, hname⟩ := h
  obtain ⟨path', target, hpath', hname'⟩ := h'
  exact ⟨path ++ name :: path', target, hpath.trans (.cons hname hwritten hpath'), hname'⟩

/-- The second half of a path, from a name on it. -/
theorem Path.after {front : List String} (hwritten : s.valueOf? name = some written)
    (h : s.Path value (front ++ name :: path) target) : s.Path written.toList path target := by
  induction front generalizing value with
  | nil =>
    obtain _ | ⟨_, hwritten', hpath⟩ := h
    rw [hwritten] at hwritten'
    exact Option.some.inj hwritten' ▸ hpath
  | cons name' front ih =>
    obtain _ | ⟨_, _, hpath⟩ := h
    exact ih hpath

/-- Of the paths to a name there is one that goes in no circle. -/
theorem LeadsTo.exists_nodup (h : s.LeadsTo value name) :
    ∃ path target, s.Path value path target ∧ name ∈ referred target ∧ (name :: path).Nodup := by
  obtain ⟨path, target, hpath, hname⟩ := h
  induction hpath with
  | nil value => exact ⟨[], value, .nil value, hname, List.nodup_singleton name⟩
  | @cons value target name' written path hname' hwritten _ ih =>
    obtain ⟨path', target', hpath', hname'', hnodup⟩ := ih hname
    by_cases heq : name = name'
    · exact ⟨[], value, .nil value, heq ▸ hname', List.nodup_singleton name⟩
    by_cases hmem : name' ∈ path'
    · -- The circle from the name back to itself is left out.
      obtain ⟨front, rest, rfl⟩ := List.append_of_mem hmem
      refine ⟨name' :: rest, target', .cons hname' hwritten (hpath'.after hwritten), hname'', ?_⟩
      exact hnodup.sublist ((List.sublist_append_right front _).cons_cons name)
    · refine ⟨name' :: path', target', .cons hname' hwritten hpath', hname'', ?_⟩
      rw [List.nodup_cons] at hnodup ⊢
      exact ⟨by simp [heq, hnodup.1], List.nodup_cons.mpr ⟨hmem, hnodup.2⟩⟩

theorem Unhyphenated.outside (h : s.Unhyphenated value) : '-' ∉ outside value :=
  h [] value (.nil value)

theorem Unhyphenated.of_leadsTo (h : s.Unhyphenated value) (hname : s.LeadsTo value name)
    (hwritten : s.valueOf? name = some written) : s.Unhyphenated written.toList := by
  intro path target hpath
  obtain ⟨path', middle, hpath', hname'⟩ := hname
  exact h _ target (hpath'.trans (.cons hname' hwritten hpath))

theorem mem_names_of_valueOf? (hwritten : s.valueOf? name = some written) : name ∈ s.names := by
  obtain ⟨d, hd, -⟩ := Option.map_eq_some_iff.mp hwritten
  exact mem_names_of_preferred? hd

/-- It is enough that no name stands for a value with a hyphen of its own. -/
theorem unhyphenated_of_names
    (hnames : ∀ name ∈ s.names, ∀ written ∈ s.valueOf? name, '-' ∉ Reference.outside written.toList)
    (hvalue : '-' ∉ Reference.outside value) : s.Unhyphenated value := by
  intro path target hpath
  induction hpath with
  | nil _ => exact hvalue
  | cons _ hwritten _ ih => exact ih (hnames _ (mem_names_of_valueOf? hwritten) _ hwritten)

/-- Names with written values at the root, some in a stylesheet of their own and others in a registry. -/
def ofValues (locals registered : List (String × String)) : Scope :=
  let declarations (source : String) (values : List (String × String)) : List Declaration :=
    values.map fun (name, value) => ⟨name, value, source, 0, ":root", ⟨.root, 1, none, none⟩, none⟩
  ⟨Sheet.byName (declarations "page.css" locals),
    (∅ : Registry).replaceVariables "base.css" (declarations "base.css" registered)⟩

/-- A value that is met while another one is resolved. -/
structure Within (s : Scope) (value met : List Char) : Prop where
  outside : '-' ∉ outside met
  leadsTo : ∀ name ∈ referred met, s.LeadsTo value name

theorem Unhyphenated.within (h : s.Unhyphenated value) : s.Within value value :=
  ⟨h.outside, fun _ => leadsTo_of_mem⟩

/-- What is left of a value when it is resolved while some names are expanded: of the names with a
declaration it refers to none but those, and such as lead back to themselves. -/
structure Leaves (s : Scope) (visited : List String) (value left : List Char) : Prop
    extends s.Within value left where
  left : ∀ name ∈ referred left, ∀ written, s.valueOf? name = some written →
    name ∈ visited ∨ s.LeadsBack name

end Scope

namespace Resolution

variable {s : Scope} {visited : List String} {value met : List Char} {segment : Segment}
  {letters spelling : List Char} {written : String}

/-! ### One pass -/

/-- What a part of a value is replaced by. -/
def replacement (expand : List Char → List Char → Traced (List Char)) : Segment → Traced (List Char)
  | .literal c => pure [c]
  | .reference name spelling => expand name spelling

theorem value_pass_eq (expand : List Char → List Char → Traced (List Char)) (value : List Char) :
    (pass expand value).value = (segments value).flatMap fun p => (replacement expand p).value := by
  unfold pass
  induction segments value with
  | nil => rfl
  | cons segment rest ih =>
    rw [List.foldr_cons, List.flatMap_cons, ← ih]
    cases segment <;> rfl

theorem cycles_pass_eq (expand : List Char → List Char → Traced (List Char)) (value : List Char) :
    (pass expand value).cycles = (segments value).flatMap fun p => (replacement expand p).cycles := by
  unfold pass
  induction segments value with
  | nil => rfl
  | cons segment rest ih =>
    rw [List.foldr_cons, List.flatMap_cons, ← ih]
    cases segment <;> rfl

section Parts

variable {expand : List Char → List Char → Traced (List Char)}
  (hparts : ∀ segment ∈ segments met, '-' ∉ outside (replacement expand segment).value)

include hparts

theorem not_mem_outside_pass : '-' ∉ outside (pass expand met).value := by
  rw [value_pass_eq, Reference.outside_flatMap hparts, List.mem_flatMap]
  rintro ⟨segment, hmem, hhyphen⟩
  exact hparts segment hmem hhyphen

theorem mem_referred_pass {name : String} : name ∈ referred (pass expand met).value ↔
    ∃ segment ∈ segments met, name ∈ referred (replacement expand segment).value := by
  rw [value_pass_eq, Reference.referred_flatMap hparts, List.mem_flatMap]

end Parts

/-- A value whose references all stay as they are is settled. -/
theorem pass_eq_pure {expand : List Char → List Char → Traced (List Char)}
    (hsame : ∀ segment ∈ segments value, replacement expand segment = pure segment.text) :
    pass expand value = pure value := by
  refine Traced.ext ?_ ?_
  · rw [value_pass_eq, List.flatMap_congr fun p hp => congrArg Traced.value (hsame p hp)]
    exact Reference.flatMap_text_segments value
  · rw [cycles_pass_eq, List.flatMap_congr fun p hp => congrArg Traced.cycles (hsame p hp)]
    simp

theorem expand_of_mem (h : String.ofList letters ∈ visited) (spelling : List Char) :
    expand s visited letters spelling = ⟨spelling, [String.ofList letters]⟩ := by
  simp only [expand, h, if_true]

theorem expand_of_none (h : String.ofList letters ∉ visited)
    (hwritten : s.valueOf? (String.ofList letters) = none) (spelling : List Char) :
    expand s visited letters spelling = pure spelling := by
  simp only [expand, h, if_false, hwritten]

theorem expand_of_some (h : String.ofList letters ∉ visited)
    (hwritten : s.valueOf? (String.ofList letters) = some written) (spelling : List Char) :
    expand s visited letters spelling = resolve s (String.ofList letters :: visited) written.toList := by
  simp only [expand, h, if_false, hwritten]

theorem segments_of_spells (hs : Reference.Spells letters spelling) :
    segments spelling = [.reference letters spelling] := by
  simpa using Reference.segments_spelling hs []

theorem referred_of_spells (hs : Reference.Spells letters spelling) :
    referred spelling = [String.ofList letters] := by
  rw [referred, segments_of_spells hs]
  rfl

theorem outside_of_spells (hs : Reference.Spells letters spelling) : outside spelling = [] := by
  rw [outside, segments_of_spells hs]
  rfl

theorem segments_singleton (c : Char) : segments [c] = [.literal c] := by
  refine Reference.segments_cons ?_
  simp [Reference.read?, Text.after?, List.isPrefixOf?]

theorem referred_singleton (c : Char) : referred [c] = [] := by
  rw [referred, segments_singleton]
  rfl

theorem outside_singleton (c : Char) : outside [c] = [c] := by
  rw [outside, segments_singleton]
  rfl

/-- What holds of every pass over a value holds of what the passes end with. -/
theorem settle_induction {P Q : List Char → Prop} {expand : List Char → List Char → Traced (List Char)}
    (hpass : ∀ met, P met → Q (pass expand met).value) (hagain : ∀ met, Q met → P met)
    (hmet : P met) (passes : Nat) : Q (settle expand (passes + 1) met).value := by
  induction passes generalizing met with
  | zero =>
    simp only [settle]
    split
    · exact hpass met hmet
    · exact hpass met hmet
  | succ passes ih =>
    rw [settle]
    dsimp only
    split
    · exact hpass met hmet
    · exact ih (hagain _ (hpass met hmet))

/-- A name that is expanded within some others leaves what its written value leaves. -/
theorem leaves_replacement_of (hvalue : s.Unhyphenated value) (hmet : s.Within value met)
    (hinner : ∀ name written, name ∉ visited → s.valueOf? name = some written →
      s.Unhyphenated written.toList → s.Leaves (name :: visited) written.toList
        (resolve s (name :: visited) written.toList).value)
    (hmem : segment ∈ segments met) :
    s.Leaves visited value (replacement (expand s visited) segment).value := by
  cases segment with
  | literal c =>
    have hc : c ≠ '-' := fun heq => hmet.outside (heq ▸ Reference.mem_outside_iff.mpr hmem)
    have hnone : ∀ name, name ∉ referred [c] := by simp [referred_singleton]
    refine ⟨⟨?_, fun name hname => absurd hname (hnone name)⟩, fun name hname => absurd hname (hnone name)⟩
    simpa [replacement, outside_singleton] using hc.symm
  | reference letters spelling =>
    have hs := Reference.spells_of_mem hmem
    have hname : s.LeadsTo value (String.ofList letters) :=
      hmet.leadsTo _ (Reference.mem_referred_iff.mpr ⟨letters, spelling, hmem, rfl⟩)
    have hspelling : s.Within value spelling := by
      refine ⟨by simp [outside_of_spells hs], fun name hname' => ?_⟩
      rw [referred_of_spells hs, List.mem_singleton] at hname'
      exact hname' ▸ hname
    rw [replacement]
    by_cases hvisited : String.ofList letters ∈ visited
    · rw [expand_of_mem hvisited]
      refine ⟨hspelling, fun name hname' _ _ => .inl ?_⟩
      rw [referred_of_spells hs, List.mem_singleton] at hname'
      exact hname' ▸ hvisited
    · cases hwritten : s.valueOf? (String.ofList letters) with
      | none =>
        rw [expand_of_none hvisited hwritten]
        refine ⟨hspelling, fun name hname' written hwritten' => ?_⟩
        rw [Traced.value_pure, referred_of_spells hs, List.mem_singleton] at hname'
        rw [hname', hwritten] at hwritten'
        cases hwritten'
      | some written =>
        rw [expand_of_some hvisited hwritten]
        have hleaves := hinner _ written hvisited hwritten (hvalue.of_leadsTo hname hwritten)
        refine ⟨⟨hleaves.outside, fun name' hname' => hname.trans hwritten (hleaves.leadsTo name' hname')⟩,
          fun name' hname' written' hwritten' => ?_⟩
        rcases hleaves.left name' hname' written' hwritten' with hmem' | hback
        · rcases List.mem_cons.mp hmem' with rfl | hmem'
          · exact .inr ⟨written, hwritten, hleaves.leadsTo _ hname'⟩
          · exact .inl hmem'
        · exact .inr hback

theorem leaves_pass_of (hmet : ∀ segment ∈ segments met,
    s.Leaves visited value (replacement (expand s visited) segment).value) :
    s.Leaves visited value (pass (expand s visited) met).value := by
  have hparts := fun segment hmem => (hmet segment hmem).outside
  refine ⟨⟨not_mem_outside_pass hparts, fun name hname => ?_⟩, fun name hname => ?_⟩
  · obtain ⟨segment, hmem, hname⟩ := (mem_referred_pass hparts).mp hname
    exact (hmet segment hmem).leadsTo name hname
  · obtain ⟨segment, hmem, hname⟩ := (mem_referred_pass hparts).mp hname
    exact (hmet segment hmem).left name hname

theorem leaves_resolve (hvalue : s.Unhyphenated value) (visited : List String) :
    s.Leaves visited value (resolve s visited value).value := by
  induction hn : s.remaining visited using Nat.strongRecOn generalizing visited value with
  | _ n ih =>
    rw [resolve_eq]
    refine settle_induction (fun met hmet => leaves_pass_of fun segment hmem => ?_)
      (fun _ hleaves => hleaves.toWithin) hvalue.within 15
    refine leaves_replacement_of hvalue hmet (fun name written hvisited hwritten hinner => ?_) hmem
    exact ih _ (hn ▸ Scope.remaining_cons_lt_of_valueOf? hvisited hwritten) hinner _ rfl

theorem leaves_replacement (hvalue : s.Unhyphenated value) (hmet : s.Within value met)
    (hmem : segment ∈ segments met) :
    s.Leaves visited value (replacement (expand s visited) segment).value :=
  leaves_replacement_of hvalue hmet (fun _ _ _ _ hinner => leaves_resolve hinner _) hmem

theorem leaves_pass (hvalue : s.Unhyphenated value) (hmet : s.Within value met) :
    s.Leaves visited value (pass (expand s visited) met).value :=
  leaves_pass_of fun _ => leaves_replacement hvalue hmet

theorem segments_pass (hvalue : s.Unhyphenated value) (hmet : s.Within value met) :
    segments (pass (expand s visited) met).value =
      (segments met).flatMap fun p => segments (replacement (expand s visited) p).value := by
  rw [value_pass_eq]
  exact Reference.segments_flatMap fun segment hmem => (leaves_replacement hvalue hmet hmem).outside

end Resolution

end Swatch
