import Swatch.Proofs.Registry.Indexing

/-!
A stylesheet that takes the place of what its source declared before. It is read first, and only then
what the source has in the registry is struck out; so its references may still find what is about to go.
Main statement: to strike that out before reading makes a difference exactly if the stylesheet is read
as something else, and then only in what values are resolved to. There is none if no name that is
looked up stands for an old declaration of the source itself.
-/

namespace Swatch

/-! ### A reading by what it has -/

namespace Sheet

variable {r r' : Registry} {source text : String}

theorem declared_eq (r : Registry) (source text : String) :
    declared r source text = (written source text.toList).map fun d =>
      (resolved ⟨byName (written source text.toList), r⟩ d).value := by
  simp [declared, read, variablesAt, written, Function.comp_def]

theorem classes_eq (r : Registry) (source text : String) :
    (read r source text).value.classes = (Text.hits ClassRule.read? text.toList).filterMap fun hit =>
      (classColor? ⟨byName (declared r source text), r⟩ source (LineIndex.ofChars text.toList)
        hit).value := by
  simp [read, classColors, declared, List.filterMap_map]

theorem unresolved_of_mem_written {cs : List Char} {d : Declaration} (hd : d ∈ written source cs) :
    d.unresolved = d := by
  obtain ⟨p, -, rfl⟩ := List.mem_map.mp hd
  rfl

/-- Declarations that are written alike are resolved alike, so that the order in which a reading has
them is known. -/
theorem declared_eq_of_mem_iff (hmem : ∀ d, d ∈ declared r source text ↔ d ∈ declared r' source text) :
    declared r source text = declared r' source text := by
  simp only [declared_eq] at hmem ⊢
  refine List.map_congr_left fun d hd => ?_
  obtain ⟨d', hd', heq⟩ := List.mem_map.mp ((hmem _).mp (List.mem_map_of_mem hd))
  have hwritten : d'.unresolved = d.unresolved := by
    simpa [resolved, Declaration.unresolved] using congrArg Declaration.unresolved heq
  rw [unresolved_of_mem_written hd, unresolved_of_mem_written hd'] at hwritten
  rw [← heq, hwritten]

theorem of_classColor? {s : Scope} {lines : LineIndex} {hit : Text.Hit ClassRule} {c : ClassColor}
    (h : (classColor? s source lines hit).value = some c) :
    hit.value = ⟨c.name.toList, c.property, c.value.toList⟩ ∧
      (lines.positionAt hit.start).line = c.line := by
  simp only [classColor?] at h
  split at h
  all_goals
    simp only [Traced.value_bind] at h
    split at h
    · cases h
    · obtain rfl := Option.some.inj h
      simp

/-- What the value of a rule comes to once its references are resolved. -/
def settled (s : Scope) (value : List Char) : List Char :=
  if Selector.occurs "var(" value then (Resolution.resolve s [] value).value else value

theorem exists_color_of_classColor? {s : Scope} {lines : LineIndex} {hit : Text.Hit ClassRule}
    {c : ClassColor} (h : (classColor? s source lines hit).value = some c) :
    ∃ color : Color Float, Color.ofChars? (settled s hit.value.value) = some color ∧
      c.resolved = some color.css := by
  simp only [classColor?] at h
  split at h
  all_goals
    rename_i hoccurs
    simp only [Traced.value_bind] at h
    split at h
    · cases h
    · rename_i color hcolor
      obtain rfl := Option.some.inj h
      exact ⟨color, by simpa [settled, hoccurs] using hcolor, rfl⟩

/-- The colour of a class is the canonical text of what its rule comes to. -/
theorem exists_color_of_mem_classes {c : ClassColor} (hc : c ∈ (read r source text).value.classes) :
    ∃ color : Color Float,
      Color.ofChars? (settled ⟨byName (declared r source text), r⟩ c.value.toList) = some color ∧
        c.resolved = some color.css := by
  rw [classes_eq] at hc
  obtain ⟨hit, -, hcolor⟩ := List.mem_filterMap.mp hc
  have hvalue := exists_color_of_classColor? hcolor
  rwa [(of_classColor? hcolor).1] at hvalue

theorem classColor?_congr {s : Scope} {lines : LineIndex} {hit hit' : Text.Hit ClassRule}
    (hvalue : hit.value = hit'.value)
    (hline : (lines.positionAt hit.start).line = (lines.positionAt hit'.start).line) :
    classColor? s source lines hit = classColor? s source lines hit' := by
  simp only [classColor?, hvalue, hline]

theorem classes_eq_of_mem_iff
    (hmem : ∀ c, c ∈ (read r source text).value.classes ↔ c ∈ (read r' source text).value.classes) :
    (read r source text).value.classes = (read r' source text).value.classes := by
  -- A colour tells the rule that it comes from, and rules of one kind have one colour.
  have hsame : ∀ (r r' : Registry),
      (∀ c ∈ (read r source text).value.classes, c ∈ (read r' source text).value.classes) →
      ∀ hit ∈ Text.hits ClassRule.read? text.toList, ∀ c,
        (classColor? ⟨byName (declared r source text), r⟩ source (LineIndex.ofChars text.toList)
          hit).value = some c →
        (classColor? ⟨byName (declared r' source text), r'⟩ source (LineIndex.ofChars text.toList)
          hit).value = some c := by
    intro r r' hmem hit hhit c hc
    rw [classes_eq, classes_eq] at hmem
    obtain ⟨hit', -, hc'⟩ := List.mem_filterMap.mp (hmem c (List.mem_filterMap.mpr ⟨hit, hhit, hc⟩))
    have hrule := of_classColor? hc
    have hrule' := of_classColor? hc'
    rw [← hc', classColor?_congr (hrule.1.trans hrule'.1.symm) (hrule.2.trans hrule'.2.symm)]
  rw [classes_eq, classes_eq]
  refine List.filterMap_congr fun hit hhit => Option.ext fun c => ⟨?_, ?_⟩
  · exact hsame r r' (fun c => (hmem c).mp) hit hhit c
  · exact hsame r' r (fun c => (hmem c).mpr) hit hhit c

theorem read_eq_of_mem_iff
    (hds : ∀ d, d ∈ (read r source text).value.declarations ↔ d ∈ (read r' source text).value.declarations)
    (hcs : ∀ c, c ∈ (read r source text).value.classes ↔ c ∈ (read r' source text).value.classes) :
    (read r source text).value = (read r' source text).value := by
  have hdeclarations : (read r source text).value.declarations =
      (read r' source text).value.declarations := declared_eq_of_mem_iff hds
  have hclasses := classes_eq_of_mem_iff hcs
  cases hread : (read r source text).value
  cases hread' : (read r' source text).value
  rw [hread, hread'] at hdeclarations hclasses
  exact congrArg₂ Sheet.mk hdeclarations hclasses

end Sheet

namespace Registry

/-! ### Runs of edits -/

/-- A stylesheet is indexed, or what it declared is removed. -/
inductive Edit where
  | index (source text : String)
  | remove (source : String)
  deriving DecidableEq, Repr

def Edit.source : Edit → String
  | .index source _ => source
  | .remove source => source

def edit (r : Registry) : Edit → Registry
  | .index source text => (r.index source text).value.2
  | .remove source => r.removeSource source

def edits (r : Registry) (es : List Edit) : Registry :=
  es.foldl edit r

/-- What an edit comes to in a registry. -/
def Edit.change (r : Registry) : Edit → Change
  | .index source text =>
    let sheet := (Sheet.read r source text).value
    .replace source sheet.declarations sheet.classes
  | .remove source => .removeSource source

theorem edit_eq_change (r : Registry) (e : Edit) : r.edit e = r.change (e.change r) := by
  cases e <;> rfl

variable {r : Registry} {l : Log} {source text : String}

theorem concerns_change (r : Registry) (e : Edit) : (e.change r).Concerns e.source := by
  cases e with
  | index source text =>
    have hsources : ∀ x ∈ (Sheet.read r source text).value.sources, x = source := fun _ => eq_of_mem_sources
    refine ⟨rfl, fun d hd => hsources _ ?_, fun c hc => hsources _ ?_⟩
    · exact List.mem_append_left _ (List.mem_map_of_mem hd)
    · exact List.mem_append_right _ (List.mem_map_of_mem hc)
  | remove source => rfl

theorem Reflects.edit (hr : r.Reflects l) (e : Edit) : (r.edit e).Reflects (l.change (e.change r)) :=
  edit_eq_change r e ▸ hr.change (e.change r)

theorem exists_reflects_edits (es : List Edit) : ∃ l, ((∅ : Registry).edits es).Reflects l := by
  suffices hrun : ∀ (r : Registry) (l : Log), r.Reflects l → ∃ l', (r.edits es).Reflects l' from
    hrun ∅ ∅ reflects_empty
  induction es with
  | nil => exact fun r l hr => ⟨l, hr⟩
  | cons e es ih => exact fun r l hr => ih _ _ (hr.edit e)

/-! ### To strike out and to enter -/

theorem keepEntries_keepEntries {α : Type} (store : Keyed String (List α)) (p : α → Bool) :
    keepEntries (keepEntries store p) p = keepEntries store p := by
  simp only [keepEntries, Keyed.map, Keyed.filter, Keyed.mk.injEq]
  generalize store.entries = entries
  have hkept : ∀ e ∈ (entries.map fun e => (e.1, e.2.filter p)).filter fun e => !e.2.isEmpty,
      (e.1, e.2.filter p) = e := by
    intro e he
    obtain ⟨e', -, rfl⟩ := List.mem_map.mp (List.mem_filter.mp he).1
    simp
  rw [List.map_congr_left hkept, List.map_id', List.filter_filter]
  simp

theorem removeSource_removeSource (r : Registry) (source : String) :
    (r.removeSource source).removeSource source = r.removeSource source := by
  simp only [removeSource, keepEntries_keepEntries]

theorem foldl_addVariable (ds : List Declaration) (r : Registry) :
    ds.foldl (fun r d => r.addVariable d.name d) r =
      { r with declarations := ds.foldl (fun t d =>
          t.update d.name fun earlier => insertBySpecificity d (earlier.getD [])) r.declarations } := by
  induction ds generalizing r with
  | nil => rfl
  | cons d ds ih => exact ih (r.addVariable d.name d)

/-- To replace what a source declares is to remove the source and then to enter the new. -/
theorem replace_eq (r : Registry) (source : String) (ds : List Declaration) (cs : List ClassColor) :
    r.replace source ds cs =
      cs.foldl (fun r c => r.addClass c.name c)
        (ds.foldl (fun r d => r.addVariable d.name d) (r.removeSource source)) := by
  simp only [replace, replaceVariables, replaceClasses, foldl_addVariable, removeSource]

theorem replace_removeSource (r : Registry) (source : String) (ds : List Declaration)
    (cs : List ClassColor) : (r.removeSource source).replace source ds cs = r.replace source ds cs := by
  rw [replace_eq, removeSource_removeSource, ← replace_eq]

/-! ### Reading before or after what goes -/

/-- What has been entered for a source is told apart from what was kept of the others. -/
theorem mem_entered_iff {α : Type} (key : α → String) {origin : α → String} {xs : List α}
    (hxs : ∀ a ∈ xs, origin a = source) (entries : List (String × α)) (a : α) :
    a ∈ xs ↔ origin a = source ∧
      (key a, a) ∈ entries.filter (origin ·.2 ≠ source) ++ xs.map fun a => (key a, a) := by
  constructor
  · exact fun ha => ⟨hxs a ha, List.mem_append_right _ (List.mem_map_of_mem ha)⟩
  · rintro ⟨hsource, hmem⟩
    rcases List.mem_append.mp hmem with hkept | hentered
    · simp [hsource] at hkept
    · obtain ⟨a', ha', heq⟩ := List.mem_map.mp hentered
      exact (Prod.mk.inj heq).2 ▸ ha'

theorem Reflects.replace (hr : r.Reflects l) (source : String) (ds : List Declaration)
    (cs : List ClassColor) : (r.replace source ds cs).Reflects
      ⟨l.declarations.filter (·.2.source ≠ source) ++ ds.map fun d => (d.name, d),
        l.classes.filter (·.2.source ≠ source) ++ cs.map fun c => (c.name, c)⟩ :=
  hr.change (.replace source ds cs)

section Sheet

variable {s : Sheet}

theorem mem_declarations_iff (hr : r.Reflects l) (hs : ∀ x ∈ s.sources, x = source) (d : Declaration) :
    d ∈ s.declarations ↔ d.source = source ∧
      d ∈ ((r.replace source s.declarations s.classes).stored? d.name).getD [] := by
  have hds : ∀ d ∈ s.declarations, d.source = source := fun d hd =>
    hs _ (List.mem_append_left _ (List.mem_map_of_mem hd))
  rw [mem_entered_iff Declaration.name hds l.declarations, (hr.replace _ _ _).answers.stored?,
    listed?_getD, inOrder, (List.mergeSort_perm _ _).mem_iff, mem_entriesOf]

theorem mem_classes_iff (hr : r.Reflects l) (hs : ∀ x ∈ s.sources, x = source) (c : ClassColor) :
    c ∈ s.classes ↔ c.source = source ∧
      c ∈ ((r.replace source s.declarations s.classes).classColors? c.name).getD [] := by
  have hcs : ∀ c ∈ s.classes, c.source = source := fun c hc =>
    hs _ (List.mem_append_right _ (List.mem_map_of_mem hc))
  rw [mem_entered_iff ClassColor.name hcs l.classes, (hr.replace _ _ _).answers.classColors?,
    listed?_getD, mem_entriesOf]

end Sheet

theorem unresolved_replace (hr : r.Reflects l) (r' : Registry) (source text name : String)
    (cs : List ClassColor) :
    ((r.replace source (Sheet.declared r' source text) cs).variablesSorted name).map (·.unresolved) =
      inOrder specificity (((entriesOf name l.declarations).filter (·.source ≠ source)).map (·.unresolved) ++
        (Sheet.written source text.toList).filter (·.name = name)) := by
  have hkey : ∀ d : Declaration, specificity d.unresolved = specificity d := fun _ => rfl
  rw [(hr.replace source _ cs).answers.variablesSorted, map_inOrder hkey, entriesOf_append, entriesOf_map,
    List.map_append, filter_written r', ← entriesOf_filter]

theorem variablesSorted_removeSource (hr : r.Reflects l) (source name : String) :
    (r.removeSource source).variablesSorted name = (r.variablesSorted name).filter (·.source ≠ source) := by
  have hremoved : (r.removeSource source).Reflects (l.dropSource source) := hr.change (.removeSource source)
  rw [hremoved.answers.variablesSorted, hr.answers.variables_others]

/-- A name that stands for what another source declares keeps its written value. -/
theorem valueOf?_removeSource (hr : r.Reflects l) {name : String}
    (hother : ∀ d ∈ (r.variablesSorted name).head?, d.source ≠ source) :
    (r.removeSource source).valueOf? name = r.valueOf? name := by
  rw [valueOf?, valueOf?, variablesSorted_removeSource hr]
  cases hds : r.variablesSorted name with
  | nil => rfl
  | cons d ds =>
    have hd : d.source ≠ source := hother d (by rw [hds]; rfl)
    simp [hd]

/-- Whether what a source declared is struck out before its stylesheet is read or only after that makes
no difference to how the new declarations are written. It makes none at all exactly if the stylesheet is
read as the same; and that it is if no name that is looked up stands for what is struck out. -/
theorem edit_index_eq_iff (es : List Edit) (source text : String) :
    let r := (∅ : Registry).edits es
    let after := r.edit (.index source text)
    let before := (r.edit (.remove source)).edit (.index source text)
    (∀ name, (after.variablesSorted name).map (·.unresolved) =
      (before.variablesSorted name).map (·.unresolved)) ∧
    ((∀ name, after.stored? name = before.stored? name ∧
        after.classColors? name = before.classColors? name) ↔
      (Sheet.read r source text).value = (Sheet.read (r.edit (.remove source)) source text).value) ∧
    ((∀ name ∈ Sheet.lookUps r source text, name ∉ Sheet.names text.toList →
        ∀ d ∈ (r.variablesSorted name).head?, d.source ≠ source) → after = before) := by
  obtain ⟨l, hr⟩ := exists_reflects_edits es
  intro r after before
  let s := (Sheet.read r source text).value
  let s' := (Sheet.read (r.removeSource source) source text).value
  have hafter : after = r.replace source s.declarations s.classes := rfl
  have hbefore : before = r.replace source s'.declarations s'.classes := replace_removeSource r source _ _
  have heq : s = s' → after = before := fun hread => by rw [hafter, hbefore, hread]
  refine ⟨fun name => ?_, ⟨fun hsame => ?_, fun hread name => ?_⟩, fun hothers => heq ?_⟩
  · rw [hafter, hbefore]
    exact (unresolved_replace hr r source text name _).trans (unresolved_replace hr _ source text name _).symm
  · rw [hafter, hbefore] at hsame
    have hs : ∀ x ∈ s.sources, x = source := fun _ => eq_of_mem_sources
    have hs' : ∀ x ∈ s'.sources, x = source := fun _ => eq_of_mem_sources
    have hds : ∀ d, d ∈ s.declarations ↔ d ∈ s'.declarations := fun d => by
      rw [mem_declarations_iff hr hs, (hsame d.name).1, ← mem_declarations_iff hr hs']
    have hcs : ∀ c, c ∈ s.classes ↔ c ∈ s'.classes := fun c => by
      rw [mem_classes_iff hr hs, (hsame c.name).2, ← mem_classes_iff hr hs']
    exact Sheet.read_eq_of_mem_iff hds hcs
  · rw [heq hread]
    exact ⟨rfl, rfl⟩
  · refine congrArg Traced.value (Sheet.read_congr fun name hname hown => ?_)
    exact (valueOf?_removeSource hr (hothers name hname hown)).symm

/-- Two stylesheets. The second may get a new text, with references to the first and within itself. -/
def retouchedTheme : List Edit :=
  [.index "base.css" ":root\x7b--ink:#000\x7d", .index "theme.css" ":root\x7b--accent:#fff; --old:red\x7d"]

theorem edit_index_eq_iff_retouchedTheme :
    let r := (∅ : Registry).edits retouchedTheme
    let text := ":root\x7b--accent:var(--ink); --line:1px var(--accent)\x7d"
    Sheet.lookUps r "theme.css" text = ["--ink", "--accent", "--ink"] ∧
      r.edit (.index "theme.css" text) = (r.edit (.remove "theme.css")).edit (.index "theme.css" text) ∧
      ((r.edit (.index "theme.css" text)).variablesSorted "--line").map (·.resolved) = [some "1px #000"] :=
  ⟨by decide +kernel, (edit_index_eq_iff retouchedTheme "theme.css" _).2.2 (by decide +kernel),
    by decide +kernel⟩

/-- A reference still finds what the stylesheet declared before and no longer does. -/
theorem not_edit_index_eq_of_lostDeclaration : ¬∀ (es : List Edit) (source text name : String),
    (((∅ : Registry).edits es).edit (.index source text)).stored? name =
      ((((∅ : Registry).edits es).edit (.remove source)).edit (.index source text)).stored? name := by
  intro hsame
  have hlost := hsame [.index "theme.css" ":root\x7b--ink:#fff\x7d"] "theme.css"
    ":root\x7b--line:var(--ink)\x7d" "--line"
  exact absurd hlost (by decide +kernel)

end Registry

end Swatch
