import Swatch.Proofs.Stylesheet.Substitution

/-!
Circles. Resolution notes a name when it comes back to it while it is still being expanded. Main statement:
some name is noted exactly if references lead from the value to a name that was being expanded before, or
back to one that they led to already. No circle is missed, whatever the values are. That nothing else is
noted takes that no value on the way has a hyphen outside its references.
-/

namespace Swatch

open Reference (referred outside segments)

namespace Scope

variable {s : Scope} {visited : List String} {value : List Char} {name name' written : String}

/-- References lead from a value to a name, past none of some others. -/
def Reaches (s : Scope) (visited : List String) (value : List Char) (name : String) : Prop :=
  ∃ path target, s.Path value path target ∧ path.Disjoint visited ∧ name ∈ referred target

/-- Following references from a value leads to a name that was there before, or was followed on the way. -/
def ComesBack (s : Scope) (visited : List String) (value : List Char) (name : String) : Prop :=
  ∃ path target, s.Path value path target ∧ name ∈ referred target ∧ (name ∈ visited ∨ name ∈ path)

/-- No value that references lead to, past none of some names, has a hyphen outside its own references. -/
def UnhyphenatedUpTo (s : Scope) (visited : List String) (value : List Char) : Prop :=
  ∀ path target, s.Path value path target → path.Disjoint visited → '-' ∉ outside target

theorem Unhyphenated.upTo (h : s.Unhyphenated value) (visited : List String) :
    s.UnhyphenatedUpTo visited value :=
  fun path target hpath _ => h path target hpath

theorem reaches_of_mem (hname : name ∈ referred value) : s.Reaches visited value name :=
  ⟨[], value, .nil value, List.disjoint_nil_left visited, hname⟩

/-- A path that goes on behind a name, and not back to it, passes none of the names before. -/
theorem disjoint_append_cons {path path' : List String} (hpath : path.Disjoint visited)
    (hnew : name ∉ visited) (hpath' : path'.Disjoint (name :: visited)) :
    (path ++ name :: path').Disjoint visited := by
  rw [List.disjoint_append_left, List.disjoint_cons_left]
  exact ⟨hpath, hnew, List.disjoint_of_disjoint_cons_right hpath'⟩

theorem Reaches.trans (h : s.Reaches visited value name) (hnew : name ∉ visited)
    (hwritten : s.valueOf? name = some written) (h' : s.Reaches (name :: visited) written.toList name') :
    s.Reaches visited value name' := by
  obtain ⟨path, middle, hpath, hdisjoint, hname⟩ := h
  obtain ⟨path', target, hpath', hdisjoint', hname'⟩ := h'
  exact ⟨path ++ name :: path', target, hpath.trans (.cons hname hwritten hpath'),
    disjoint_append_cons hdisjoint hnew hdisjoint', hname'⟩

theorem Reaches.comesBack (h : s.Reaches visited value name) (hvisited : name ∈ visited) :
    s.ComesBack visited value name := by
  obtain ⟨path, target, hpath, -, hname⟩ := h
  exact ⟨path, target, hpath, hname, .inl hvisited⟩

theorem ComesBack.of_reaches (h : s.Reaches visited value name) (hwritten : s.valueOf? name = some written)
    (h' : s.ComesBack (name :: visited) written.toList name') : s.ComesBack visited value name' := by
  obtain ⟨path, middle, hpath, -, hname⟩ := h
  obtain ⟨path', target, hpath', hname', hback⟩ := h'
  refine ⟨path ++ name :: path', target, hpath.trans (.cons hname hwritten hpath'), hname', ?_⟩
  simp only [List.mem_cons, List.mem_append] at hback ⊢
  tauto

theorem UnhyphenatedUpTo.of_reaches (h : s.UnhyphenatedUpTo visited value)
    (hname : s.Reaches visited value name) (hnew : name ∉ visited)
    (hwritten : s.valueOf? name = some written) : s.UnhyphenatedUpTo (name :: visited) written.toList := by
  intro path' target hpath' hdisjoint'
  obtain ⟨path, middle, hpath, hdisjoint, hname⟩ := hname
  exact h _ target (hpath.trans (.cons hname hwritten hpath'))
    (disjoint_append_cons hdisjoint hnew hdisjoint')

theorem Path.exists_written {path : List String} {target : List Char} (h : s.Path value path target)
    (hname : name ∈ path) : ∃ written, s.valueOf? name = some written := by
  induction h with
  | nil _ => cases hname
  | @cons value target name' written path _ hwritten _ ih =>
    rcases List.mem_cons.mp hname with rfl | hname
    · exact ⟨written, hwritten⟩
    · exact ih hname

/-- However often names meet again in others, nothing comes back where there is no circle. -/
theorem Acyclic.not_comesBack (hacyclic : s.Acyclic value) (hclear : s.Clear visited value) :
    ¬s.ComesBack visited value name := by
  rintro ⟨path, target, hpath, hname, hvisited | hmem⟩
  · exact hclear name hvisited ⟨path, target, hpath, hname⟩
  · obtain ⟨written, hwritten⟩ := hpath.exists_written hmem
    have hnodup := hacyclic _ _ (hpath.trans (.cons hname hwritten (.nil _)))
    exact (List.nodup_append.mp hnodup).2.2 name hmem name (List.mem_singleton_self name) rfl

/-- A value that is met while another one is resolved and some names are being expanded. -/
structure Meets (s : Scope) (visited : List String) (value met : List Char) : Prop where
  outside : '-' ∉ outside met
  reaches : ∀ name ∈ referred met, s.Reaches visited value name

/-- What a value, or a part of it, has become: every name that was noted on the way comes back. -/
structure Notes (s : Scope) (visited : List String) (value : List Char) (became : Traced (List Char)) : Prop
    extends s.Meets visited value became.value where
  comesBack : ∀ name ∈ became.cycles, s.ComesBack visited value name

theorem UnhyphenatedUpTo.meets (h : s.UnhyphenatedUpTo visited value) : s.Meets visited value value :=
  ⟨h [] value (.nil value) (List.disjoint_nil_left visited), fun _ => reaches_of_mem⟩

end Scope

namespace Resolution

variable {s : Scope} {visited : List String} {value met : List Char} {segment : Segment} {name : String}

/-! ### No circle is missed -/

theorem mem_cycles_of_pass (hname : name ∈ (pass (expand s visited) value).cycles) :
    name ∈ (resolve s visited value).cycles := by
  rw [resolve_eq, maxPasses, settle]
  dsimp only
  split
  · exact hname
  · exact List.mem_append_left _ hname

theorem mem_cycles_of_mem (hmem : segment ∈ segments value)
    (hname : name ∈ (replacement (expand s visited) segment).cycles) :
    name ∈ (resolve s visited value).cycles :=
  mem_cycles_of_pass (cycles_pass_eq (expand s visited) value ▸ List.mem_flatMap.mpr ⟨segment, hmem, hname⟩)

/-- A path is followed up to the first name on it that comes back. -/
theorem exists_mem_cycles (hback : s.ComesBack visited value name) :
    ∃ name', name' ∈ (resolve s visited value).cycles := by
  have hnoted {visited : List String} {value : List Char} {name : String} (hname : name ∈ referred value)
      (hvisited : name ∈ visited) : ∃ name', name' ∈ (resolve s visited value).cycles := by
    obtain ⟨letters, spelling, hmem, rfl⟩ := Reference.mem_referred_iff.mp hname
    refine ⟨String.ofList letters, mem_cycles_of_mem hmem ?_⟩
    rw [replacement, expand_of_mem hvisited]
    exact List.mem_singleton_self _
  obtain ⟨path, target, hpath, hname, hback⟩ := hback
  induction hpath generalizing visited with
  | nil value => exact hnoted hname (hback.resolve_right List.not_mem_nil)
  | @cons value target name' written path hname' hwritten _ ih =>
    by_cases hvisited : name' ∈ visited
    · exact hnoted hname' hvisited
    · obtain ⟨letters, spelling, hmem, rfl⟩ := Reference.mem_referred_iff.mp hname'
      have hback' : name ∈ String.ofList letters :: visited ∨ name ∈ path := by
        simp only [List.mem_cons] at hback ⊢
        tauto
      obtain ⟨name'', hname''⟩ := ih hname hback'
      refine ⟨name'', mem_cycles_of_mem hmem ?_⟩
      rwa [replacement, expand_of_some hvisited hwritten]

/-! ### Nothing else is noted -/

/-- What every pass keeps, and says of the names that it notes, holds of all passes together. -/
theorem settle_traced {P : List Char → Prop} {Q : String → Prop}
    {expand : List Char → List Char → Traced (List Char)}
    (hpass : ∀ met, P met → P (pass expand met).value ∧ ∀ name ∈ (pass expand met).cycles, Q name)
    (hmet : P met) (passes : Nat) :
    P (settle expand passes met).value ∧ ∀ name ∈ (settle expand passes met).cycles, Q name := by
  induction passes generalizing met with
  | zero => exact ⟨hmet, fun _ hname => absurd hname List.not_mem_nil⟩
  | succ passes ih =>
    obtain ⟨hnext, hnoted⟩ := hpass met hmet
    obtain ⟨hsettled, hrest⟩ := ih hnext
    rw [settle]
    dsimp only
    split
    · exact ⟨hnext, hnoted⟩
    · exact ⟨hsettled, fun name hname => (List.mem_append.mp hname).elim (hnoted name) (hrest name)⟩

theorem notes_pass_of (hmet : ∀ segment ∈ segments met,
    s.Notes visited value (replacement (expand s visited) segment)) :
    s.Notes visited value (pass (expand s visited) met) := by
  have hparts := fun segment hmem => (hmet segment hmem).outside
  refine ⟨⟨not_mem_outside_pass hparts, fun name hname => ?_⟩, fun name hname => ?_⟩
  · obtain ⟨segment, hmem, hname⟩ := (mem_referred_pass hparts).mp hname
    exact (hmet segment hmem).reaches name hname
  · rw [cycles_pass_eq, List.mem_flatMap] at hname
    obtain ⟨segment, hmem, hname⟩ := hname
    exact (hmet segment hmem).comesBack name hname

/-- A part of a value is charged with what comes back behind its own name, and nothing of its neighbours. -/
theorem notes_replacement_of (hvalue : s.UnhyphenatedUpTo visited value) (hmet : s.Meets visited value met)
    (hinner : ∀ name written, name ∉ visited → s.valueOf? name = some written →
      s.UnhyphenatedUpTo (name :: visited) written.toList →
        s.Notes (name :: visited) written.toList (resolve s (name :: visited) written.toList))
    (hmem : segment ∈ segments met) : s.Notes visited value (replacement (expand s visited) segment) := by
  cases segment with
  | literal c =>
    have hc : c ≠ '-' := fun heq => hmet.outside (heq ▸ Reference.mem_outside_iff.mpr hmem)
    refine ⟨⟨?_, fun name hname => ?_⟩, fun _ hname => absurd hname List.not_mem_nil⟩
    · simpa [replacement, outside_singleton] using hc.symm
    · rw [replacement, Traced.value_pure, referred_singleton] at hname
      cases hname
  | reference letters spelling =>
    have hs := Reference.spells_of_mem hmem
    have hreaches : s.Reaches visited value (String.ofList letters) :=
      hmet.reaches _ (Reference.mem_referred_iff.mpr ⟨letters, spelling, hmem, rfl⟩)
    have hspelling : s.Meets visited value spelling := by
      refine ⟨by simp [outside_of_spells hs], fun name hname => ?_⟩
      rw [referred_of_spells hs, List.mem_singleton] at hname
      exact hname ▸ hreaches
    rw [replacement]
    by_cases hvisited : String.ofList letters ∈ visited
    · rw [expand_of_mem hvisited]
      exact ⟨hspelling, fun name hname => List.mem_singleton.mp hname ▸ hreaches.comesBack hvisited⟩
    · cases hwritten : s.valueOf? (String.ofList letters) with
      | none =>
        rw [expand_of_none hvisited hwritten]
        exact ⟨hspelling, fun _ hname => absurd hname List.not_mem_nil⟩
      | some written =>
        rw [expand_of_some hvisited hwritten]
        have hnotes := hinner _ written hvisited hwritten (hvalue.of_reaches hreaches hvisited hwritten)
        exact ⟨⟨hnotes.outside,
            fun name hname => hreaches.trans hvisited hwritten (hnotes.reaches name hname)⟩,
          fun name hname => .of_reaches hreaches hwritten (hnotes.comesBack name hname)⟩

theorem notes_resolve (hvalue : s.UnhyphenatedUpTo visited value) :
    s.Notes visited value (resolve s visited value) := by
  induction hn : s.remaining visited using Nat.strongRecOn generalizing visited value with
  | _ n ih =>
    have hpass (met : List Char) (hmet : s.Meets visited value met) :
        s.Notes visited value (pass (expand s visited) met) :=
      notes_pass_of fun segment hmem => notes_replacement_of hvalue hmet
        (fun name written hnew hwritten hinner =>
          ih _ (hn ▸ Scope.remaining_cons_lt_of_valueOf? hnew hwritten) hinner rfl) hmem
    obtain ⟨hmeets, hcomesBack⟩ := settle_traced (Q := s.ComesBack visited value)
      (fun met hmet => ⟨(hpass met hmet).toMeets, (hpass met hmet).comesBack⟩) hvalue.meets maxPasses
    rw [resolve_eq]
    exact ⟨hmeets, hcomesBack⟩

/-- A name is noted exactly if some name comes back; those that are noted do, and where there is no circle
none is. -/
theorem cycles_ne_nil_iff (hvalue : s.UnhyphenatedUpTo visited value) :
    ((resolve s visited value).cycles ≠ [] ↔ ∃ name, s.ComesBack visited value name) ∧
      (∀ name ∈ (resolve s visited value).cycles, s.ComesBack visited value name) ∧
      (s.Acyclic value → s.Clear visited value → (resolve s visited value).cycles = []) := by
  have hsound := (notes_resolve hvalue).comesBack
  refine ⟨⟨fun hne => ?_, fun ⟨name, hback⟩ => ?_⟩, hsound, fun hacyclic hclear => ?_⟩
  · obtain ⟨name, hname⟩ := List.exists_mem_of_ne_nil _ hne
    exact ⟨name, hsound name hname⟩
  · obtain ⟨name', hname'⟩ := exists_mem_cycles hback
    exact List.ne_nil_of_mem hname'
  · exact List.eq_nil_iff_forall_not_mem.mpr fun name hname =>
      hacyclic.not_comesBack hclear (hsound name hname)

/-- Two names that stand for each other. -/
def roundabout : Scope :=
  .ofValues [("--ink", "1px var(--text)")] [("--text", "var(--none) var(--ink)")]

/-- Two names that meet again in a third, which one of them refers to twice. -/
def fork : Scope :=
  .ofValues [("--left", "var(--ink)"), ("--right", "var(--ink) var( --ink )")] [("--ink", "#fff")]

theorem cycles_ne_nil_iff_roundabout :
    roundabout.UnhyphenatedUpTo [] "var(--ink)".toList ∧
      roundabout.ComesBack [] "var(--ink)".toList "--ink" ∧
      (resolve roundabout [] "var(--ink)".toList).cycles ≠ [] ∧
      fork.UnhyphenatedUpTo [] "var(--left) var(--right) var(--ink)".toList ∧
      (resolve fork [] "var(--left) var(--right) var(--ink)".toList).cycles = [] := by
  have hround : roundabout.UnhyphenatedUpTo [] "var(--ink)".toList :=
    (Scope.unhyphenated_of_names (by decide +kernel) (by decide +kernel)).upTo []
  have hback : roundabout.ComesBack [] "var(--ink)".toList "--ink" := by
    have hink : roundabout.valueOf? "--ink" = some "1px var(--text)" := by decide +kernel
    have htext : roundabout.valueOf? "--text" = some "var(--none) var(--ink)" := by decide +kernel
    exact ⟨["--ink", "--text"], _, .cons (by decide +kernel) hink (.cons (by decide +kernel) htext (.nil _)),
      by decide +kernel, by decide⟩
  have hfork : fork.UnhyphenatedUpTo [] "var(--left) var(--right) var(--ink)".toList :=
    (Scope.unhyphenated_of_names (by decide +kernel) (by decide +kernel)).upTo _
  have hacyclic : fork.Acyclic "var(--left) var(--right) var(--ink)".toList :=
    Scope.acyclic_of_rank (fun name => ["--ink", "--right", "--left"].idxOf name) (by decide +kernel) _
  exact ⟨hround, hback, (cycles_ne_nil_iff hround).1.mpr ⟨_, hback⟩, hfork,
    (cycles_ne_nil_iff hfork).2.2 hacyclic fun _ hname => absurd hname List.not_mem_nil⟩

end Resolution

end Swatch
