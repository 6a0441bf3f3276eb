import Swatch.Proofs.Registry.Replacement
import Swatch.Proofs.Stylesheet.Plain

/-!
A stylesheet that is indexed again as it is. What its source declares is struck out and entered anew, so
it comes behind what other sources declare. Main statement: if the stylesheet has no references, a name
and a class stand for what they stood for before, except where that was the source's own and another
source has an equal claim; there they stand for the first that another source has.
-/

namespace Swatch

namespace Registry

variable {r : Registry} {l : Log} {source : String}

/-! ### What a source has in the log -/

/-- What a log has of one source. -/
def Log.ofSource (l : Log) (source : String) : Log where
  declarations := l.declarations.filter (·.2.source = source)
  classes := l.classes.filter (·.2.source = source)

theorem Log.ofSource_dropSource {source' : String} (hne : source' ≠ source) (l : Log) :
    (l.dropSource source').ofSource source = l.ofSource source := by
  have hkept : ∀ x : String, (decide (x = source) && decide (x ≠ source')) = decide (x = source) := by
    intro x
    by_cases hx : x = source
    · simp [hx, Ne.symm hne]
    · simp [hx]
  simp only [ofSource, dropSource, dropDeclarations, dropClasses, List.filter_filter, hkept]

/-- An edit of one source leaves what the log has of the others. -/
theorem Log.ofSource_change {e : Edit} (hne : e.source ≠ source) (r : Registry) (l : Log) :
    (l.change (e.change r)).ofSource source = l.ofSource source := by
  rw [← ofSource_dropSource hne (l.change (e.change r)), dropSource_change (concerns_change r e),
    ofSource_dropSource hne]

theorem exists_reflects_edits_others {es : List Edit} (hr : r.Reflects l)
    (hothers : ∀ e ∈ es, e.source ≠ source) :
    ∃ l', (r.edits es).Reflects l' ∧ l'.ofSource source = l.ofSource source := by
  induction es generalizing r l with
  | nil => exact ⟨l, hr, rfl⟩
  | cons e es ih =>
    rw [List.forall_mem_cons] at hothers
    obtain ⟨l', hr', hsame⟩ := ih (hr.edit e) hothers.2
    exact ⟨l', hr', hsame.trans (Log.ofSource_change hothers.1 r l)⟩

theorem Log.ofSource_replace {s : Sheet} (hs : ∀ x ∈ s.sources, x = source) (l : Log) :
    (l.change (.replace source s.declarations s.classes)).ofSource source = .ofReadings [s] := by
  have hds : s.declarations.filter (·.source = source) = s.declarations :=
    List.filter_eq_self.mpr fun d hd => by
      simpa using hs _ (List.mem_append_left _ (List.mem_map_of_mem hd))
  have hcs : s.classes.filter (·.source = source) = s.classes :=
    List.filter_eq_self.mpr fun c hc => by
      simpa using hs _ (List.mem_append_right _ (List.mem_map_of_mem hc))
  simp [Log.change, Log.replaceDeclarations, Log.replaceClasses, Log.dropDeclarations, Log.dropClasses,
    Log.enterDeclarations, Log.enterClasses, Log.ofSource, Log.ofReadings, List.filter_filter,
    List.filter_map, Function.comp_def, hds, hcs]

/-! ### The first of some elements -/

section First

variable {α : Type} {key : α → Int}

theorem key_le_of_head?_inOrder {xs : List α} {a : α} (hfirst : (inOrder key xs).head? = some a) :
    ∀ b ∈ xs, key a ≤ key b := by
  intro b hb
  obtain ⟨rest, hxs⟩ := List.head?_eq_some_iff.mp hfirst
  have hsorted := pairwise_inOrder key xs
  rw [← (List.mergeSort_perm xs _).mem_iff, ← inOrder, hxs] at hb
  rw [hxs] at hsorted
  rcases List.mem_cons.mp hb with rfl | hb
  · exact Int.le_refl _
  · exact List.rel_of_pairwise_cons hsorted hb

theorem mem_of_head?_inOrder {xs : List α} {a : α} (hfirst : (inOrder key xs).head? = some a) : a ∈ xs :=
  (List.mergeSort_perm xs _).mem_iff.mp (List.mem_of_mem_head? hfirst)

/-- Those of the least key come first, in the order in which they came. -/
theorem head?_inOrder_of_perm {xs ys : List α} {a : α} (hfirst : (inOrder key xs).head? = some a)
    (hperm : ys.Perm xs) : (inOrder key ys).head? = (ys.filter (key · = key a)).head? := by
  have ha : a ∈ ys := hperm.mem_iff.mpr (mem_of_head?_inOrder hfirst)
  cases hys : inOrder key ys with
  | nil =>
    have hempty : (inOrder key ys).isEmpty = ys.isEmpty := isEmpty_inOrder ys
    rw [hys, List.isEmpty_nil, eq_comm, List.isEmpty_iff] at hempty
    exact absurd ha (hempty ▸ List.not_mem_nil)
  | cons b more =>
    have hhead : (inOrder key ys).head? = some b := by rw [hys, List.head?_cons]
    have hb : b ∈ xs := hperm.mem_iff.mp (mem_of_head?_inOrder hhead)
    have hkey : key b = key a :=
      Int.le_antisymm (key_le_of_head?_inOrder hhead a ha) (key_le_of_head?_inOrder hfirst b hb)
    rw [← filter_key_inOrder key ys, hys, List.filter_cons_of_pos (by simp [hkey])]
    rfl

/-- When the elements of one source go to the end, the first remains unless it is one of them and
there is another. -/
theorem head?_filter_append_filter (origin : α → String) (source : String) (xs : List α) :
    (xs.filter (origin · ≠ source) ++ xs.filter (origin · = source)).head? =
      xs.head?.map fun a =>
        if origin a = source then (xs.find? (origin · ≠ source)).getD a else a := by
  cases xs with
  | nil => rfl
  | cons a xs =>
    by_cases ha : origin a = source
    · rw [List.filter_cons_of_neg (by simp [ha]), List.filter_cons_of_pos (by simp [ha]),
        List.head?_append, List.head?_filter, List.find?_cons_of_neg (by simp [ha])]
      cases xs.find? (origin · ≠ source) <;> simp [ha]
    · rw [List.filter_cons_of_pos (by simp [ha])]
      simp [ha]

theorem head?_inOrder_filter_append_filter (key : α → Int) (origin : α → String) (source : String)
    (xs : List α) :
    (inOrder key (xs.filter (origin · ≠ source) ++ xs.filter (origin · = source))).head? =
      (inOrder key xs).head?.map fun a =>
        if origin a = source then
          ((inOrder key xs).find? fun b => key b = key a ∧ origin b ≠ source).getD a
        else a := by
  cases hfirst : (inOrder key xs).head? with
  | none =>
    have hnil : xs = [] := by
      have hempty : (inOrder key xs).isEmpty = xs.isEmpty := isEmpty_inOrder xs
      rw [← List.isEmpty_iff, ← hempty, List.isEmpty_iff]
      exact List.head?_eq_none_iff.mp hfirst
    simp [hnil, inOrder]
  | some a =>
    have hperm : (xs.filter (origin · ≠ source) ++ xs.filter (origin · = source)).Perm xs := by
      simpa using List.filter_append_perm (origin · ≠ source) xs
    have hgroup : (xs.filter (key · = key a)).head? = some a :=
      (head?_inOrder_of_perm hfirst (List.Perm.refl xs)).symm.trans hfirst
    have hrival : (xs.filter (key · = key a)).find? (origin · ≠ source) =
        (inOrder key xs).find? fun b => key b = key a ∧ origin b ≠ source := by
      rw [← filter_key_inOrder key xs, List.find?_filter]
      simp
    have hcomm : ∀ p : α → Bool,
        (xs.filter p).filter (key · = key a) = (xs.filter (key · = key a)).filter p :=
      fun p => List.filter_comm _ p xs
    rw [head?_inOrder_of_perm hfirst hperm, List.filter_append, hcomm, hcomm, head?_filter_append_filter,
      hgroup, Option.map_some, Option.map_some, hrival]

end First

/-! ### Indexing again -/

theorem preferred?_ofRegistry (r : Registry) (name : String) :
    (Scope.ofRegistry r).preferred? name = (r.variablesSorted name).head? :=
  rfl

/-- What is kept in order need not be put in order. -/
theorem variablesSorted_edits (es : List Edit) (name : String) :
    ((∅ : Registry).edits es).variablesSorted name = (((∅ : Registry).edits es).stored? name).getD [] := by
  obtain ⟨l, hr⟩ := exists_reflects_edits es
  rw [hr.answers.variablesSorted, hr.answers.stored?, listed?_getD]

theorem entriesOf_filter_append_filter {α : Type} (name : String) (origin : α → String) (source : String)
    (entries : List (String × α)) :
    entriesOf name (entries.filter (origin ·.2 ≠ source) ++ entries.filter (origin ·.2 = source)) =
      (entriesOf name entries).filter (origin · ≠ source) ++
        (entriesOf name entries).filter (origin · = source) := by
  rw [entriesOf_append, entriesOf_filter name (origin · ≠ source),
    entriesOf_filter name (origin · = source)]

/-- What a source has, entered once more, comes behind what the others have. -/
theorem Reflects.replace_own {s : Sheet} (hr : r.Reflects l) (hown : l.ofSource source = .ofReadings [s]) :
    (r.replace source s.declarations s.classes).Reflects
      ⟨l.declarations.filter (·.2.source ≠ source) ++ l.declarations.filter (·.2.source = source),
        l.classes.filter (·.2.source ≠ source) ++ l.classes.filter (·.2.source = source)⟩ := by
  have hds : l.declarations.filter (·.2.source = source) = s.declarations.map fun d => (d.name, d) := by
    simpa [Log.ofReadings, Log.ofSource] using congrArg Log.declarations hown
  have hcs : l.classes.filter (·.2.source = source) = s.classes.map fun c => (c.name, c) := by
    simpa [Log.ofReadings, Log.ofSource] using congrArg Log.classes hown
  rw [hds, hcs]
  exact hr.replace source _ _

/-- After a stylesheet without references was indexed, and others were since, the log has of its source
what the stylesheet is read as, whatever the registry. -/
theorem exists_reflects_own {text : String} (hplain : Reference.referred text.toList = [])
    (before : List Edit) {after : List Edit} (hafter : ∀ e ∈ after, e.source ≠ source) (r' : Registry) :
    ∃ l, ((∅ : Registry).edits (before ++ .index source text :: after)).Reflects l ∧
      l.ofSource source = .ofReadings [(Sheet.read r' source text).value] := by
  obtain ⟨l, hr⟩ := exists_reflects_edits before
  obtain ⟨l', hr', hsame⟩ := exists_reflects_edits_others (hr.edit (.index source text)) hafter
  refine ⟨l', ?_, hsame.trans ?_⟩
  · rw [edits, List.foldl_append]
    exact hr'
  · rw [Sheet.read_eq_of_plain hplain r' ((∅ : Registry).edits before)]
    exact Log.ofSource_replace (fun _ => eq_of_mem_sources) l

/-- A stylesheet without references that is indexed once more as it is, its source not having been
edited since: a name stands for the same declaration as before, unless that is of this source and
another source has one of the same specificity, and a class for the same colour, unless that is of this
source and another source has one. Then it is the first of the others. -/
theorem standing_after_reindex (before : List Edit) {after : List Edit} {source text : String}
    (hplain : Reference.referred text.toList = []) (hafter : ∀ e ∈ after, e.source ≠ source) :
    let r := (∅ : Registry).edits (before ++ .index source text :: after)
    let r' := r.edit (.index source text)
    (∀ name, (Scope.ofRegistry r').preferred? name =
      ((Scope.ofRegistry r).preferred? name).map fun d =>
        if d.source = source then
          ((r.variablesSorted name).find? fun d' =>
            specificity d' = specificity d ∧ d'.source ≠ source).getD d
        else d) ∧
    ∀ name, ((r'.classColors? name).getD []).head? =
      ((r.classColors? name).getD []).head?.map fun c =>
        if c.source = source then
          (((r.classColors? name).getD []).find? (·.source ≠ source)).getD c
        else c := by
  intro r r'
  obtain ⟨l, hr, hown⟩ := exists_reflects_own hplain before hafter r
  have hr' := (hr.replace_own hown).answers
  refine ⟨fun name => ?_, fun name => ?_⟩
  · rw [preferred?_ofRegistry, preferred?_ofRegistry, hr.answers.variablesSorted]
    refine (congrArg List.head? (hr'.variablesSorted name)).trans ?_
    rw [entriesOf_filter_append_filter name Declaration.source]
    exact head?_inOrder_filter_append_filter specificity Declaration.source source _
  · rw [hr.answers.classColors?, listed?_getD]
    refine (congrArg (fun cs => (cs.getD []).head?) (hr'.classColors? name)).trans ?_
    rw [listed?_getD, entriesOf_filter_append_filter name ClassColor.source]
    exact head?_filter_append_filter ClassColor.source source _

def lightTheme : String :=
  ":root\x7b--paper:#fff; --ink:#000\x7d .card\x7bcolor:#fff\x7d"

def darkTheme : String :=
  ":root\x7b--paper:#000\x7d .card\x7bcolor:#000\x7d"

theorem standing_after_reindex_tiedThemes :
    let r := (∅ : Registry).edits ([] ++ .index "light.css" lightTheme :: [.index "dark.css" darkTheme])
    let r' := r.edit (.index "light.css" lightTheme)
    Reference.referred lightTheme.toList = [] ∧
      ((Scope.ofRegistry r').preferred? "--paper").map (·.source) = some "dark.css" ∧
      ((Scope.ofRegistry r').preferred? "--ink").map (·.source) = some "light.css" ∧
      (((r'.classColors? "card").getD []).head?).map (·.source) = some "dark.css" := by
  have hplain : Reference.referred lightTheme.toList = [] := by decide +kernel
  have hafter : ∀ e ∈ [Edit.index "dark.css" darkTheme], e.source ≠ "light.css" := by decide
  obtain ⟨hnames, hclasses⟩ := standing_after_reindex [] hplain hafter
  refine ⟨hplain, ?_, ?_, ?_⟩
  · rw [hnames, preferred?_ofRegistry, variablesSorted_edits]
    decide +kernel
  · rw [hnames, preferred?_ofRegistry, variablesSorted_edits]
    decide +kernel
  · rw [hclasses]
    decide +kernel

/-- To index a stylesheet again changes what a name and a class stand for, once where another source has
as good a claim, and once where the source was removed in between. -/
theorem not_standing_after_reindex_of_tie :
    let light : Edit := .index "light.css" lightTheme
    let dark : Edit := .index "dark.css" darkTheme
    (Reference.referred lightTheme.toList = [] ∧ Reference.referred darkTheme.toList = []) ∧
      (Scope.ofRegistry ((∅ : Registry).edits [light, dark, light])).preferred? "--paper" ≠
        (Scope.ofRegistry ((∅ : Registry).edits [light, dark])).preferred? "--paper" ∧
      (((∅ : Registry).edits [light, dark, light]).classColors? "card").map (·.head?) ≠
        (((∅ : Registry).edits [light, dark]).classColors? "card").map (·.head?) ∧
      (Scope.ofRegistry ((∅ : Registry).edits [light, .remove "light.css", light])).preferred? "--paper" ≠
        (Scope.ofRegistry ((∅ : Registry).edits [light, .remove "light.css"])).preferred? "--paper" := by
  simp only [preferred?_ofRegistry, variablesSorted_edits]
  decide +kernel

end Registry

end Swatch
