import Mathlib.Data.List.Pairwise
import Swatch.Proofs.Stylesheet.LookUp

/-!
Stylesheets indexed one after the other. As long as none of them looks up a name that a later one
declares, each is read as it would be with all of them in reach, and the registry has the readings
side by side. So if no two of them declare the same, the registry answers alike for every such order.
-/

namespace Swatch

/-- A stylesheet: what it goes by, and its text. -/
structure Stylesheet where
  source : String
  text : String
  deriving DecidableEq, Repr

/-- The sources that the entries of a reading name. -/
def Sheet.sources (s : Sheet) : List String :=
  s.declarations.map (·.source) ++ s.classes.map (·.source)

/-- Two stylesheets, as they are read, declare no custom property and no class of the same name. -/
def Sheet.Apart (s s' : Sheet) : Prop :=
  (∀ d ∈ s.declarations, ∀ d' ∈ s'.declarations, d.name ≠ d'.name) ∧
    ∀ c ∈ s.classes, ∀ c' ∈ s'.classes, c.name ≠ c'.name

instance (s s' : Sheet) : Decidable (s.Apart s') :=
  inferInstanceAs (Decidable (_ ∧ _))

namespace Registry

variable {r : Registry} {l : Log} {sheets sheets' : List Stylesheet}

/-! ### One after the other -/

def indexAll (r : Registry) (sheets : List Stylesheet) : Registry :=
  sheets.foldl (fun r s => (r.index s.source s.text).value.2) r

/-- What stylesheets are read as when they are indexed one after the other. -/
def readings (r : Registry) : List Stylesheet → List Sheet
  | [] => []
  | s :: rest =>
    let indexed := (r.index s.source s.text).value
    indexed.1 :: readings indexed.2 rest

/-- Of stylesheets that are indexed one after the other, none looks up a name that one after it
declares. -/
def LooksBack (r : Registry) : List Stylesheet → Prop
  | [] => True
  | s :: rest =>
    (∀ s' ∈ rest, ∀ name ∈ Sheet.names s'.text.toList, name ∉ Sheet.lookUps r s.source s.text) ∧
      LooksBack (r.index s.source s.text).value.2 rest

instance decidableLooksBack : (r : Registry) → (sheets : List Stylesheet) → Decidable (LooksBack r sheets)
  | _, [] => inferInstanceAs (Decidable True)
  | r, s :: rest =>
    have := decidableLooksBack (r.index s.source s.text).value.2 rest
    inferInstanceAs (Decidable (_ ∧ _))

theorem indexAll_cons (r : Registry) (s : Stylesheet) (rest : List Stylesheet) :
    r.indexAll (s :: rest) = (r.index s.source s.text).value.2.indexAll rest :=
  rfl

theorem value_index (r : Registry) (source text : String) :
    (r.index source text).value =
      let sheet := (Sheet.read r source text).value
      (sheet, r.replace source sheet.declarations sheet.classes) :=
  rfl

theorem eq_of_mem_sources {r : Registry} {source text source' : String}
    (hmem : source' ∈ (Sheet.read r source text).value.sources) : source' = source := by
  rcases List.mem_append.mp hmem with hmem | hmem
  · obtain ⟨d, hd, rfl⟩ := List.mem_map.mp hmem
    have hwritten : d.unresolved ∈ Sheet.written source text.toList :=
      Sheet.written_declared r source text ▸ List.mem_map_of_mem hd
    obtain ⟨p, -, hp⟩ := List.mem_map.mp hwritten
    exact (congrArg Declaration.source hp).symm
  · obtain ⟨c, hc, rfl⟩ := List.mem_map.mp hmem
    simp only [Sheet.read, Sheet.classColors, Traced.value_bind, Traced.value_pure,
      Traced.value_mapM, List.mem_filterMap, List.mem_map, id] at hc
    obtain ⟨_, ⟨hit, -, rfl⟩, hc⟩ := hc
    simp only [Sheet.classColor?] at hc
    split at hc
    all_goals
      simp only [Traced.value_bind] at hc
      split at hc
      · cases hc
      · obtain rfl := Option.some.inj hc
        rfl

theorem exists_of_mem_readings {s : Sheet} (hs : s ∈ readings r sheets) :
    ∃ x ∈ sheets, ∃ r', s = (Sheet.read r' x.source x.text).value := by
  induction sheets generalizing r with
  | nil => cases hs
  | cons x rest ih =>
    rcases List.mem_cons.mp hs with rfl | hs
    · exact ⟨x, List.mem_cons_self, r, rfl⟩
    · obtain ⟨y, hy, hread⟩ := ih hs
      exact ⟨y, List.mem_cons_of_mem x hy, hread⟩

/-! ### The readings side by side -/

/-- The log of readings that come one after the other and of which none leaves. -/
def Log.ofReadings (ss : List Sheet) : Log where
  declarations := ss.flatMap fun s => s.declarations.map fun d => (d.name, d)
  classes := ss.flatMap fun s => s.classes.map fun c => (c.name, c)

theorem Reflects.index {ss : List Sheet} {source : String} (hr : r.Reflects (.ofReadings ss))
    (hnew : ∀ s ∈ ss, source ∉ s.sources) (text : String) :
    (r.index source text).value.2.Reflects (.ofReadings (ss ++ [(r.index source text).value.1])) := by
  have hdeclarations : (Log.ofReadings ss).declarations.filter (·.2.source ≠ source) =
      (Log.ofReadings ss).declarations := by
    refine List.filter_eq_self.mpr fun e he => ?_
    obtain ⟨s, hs, he⟩ := List.mem_flatMap.mp he
    obtain ⟨d, hd, rfl⟩ := List.mem_map.mp he
    have hne : d.source ≠ source := fun heq =>
      hnew s hs (List.mem_append_left _ (List.mem_map.mpr ⟨d, hd, heq⟩))
    simpa using hne
  have hclasses : (Log.ofReadings ss).classes.filter (·.2.source ≠ source) =
      (Log.ofReadings ss).classes := by
    refine List.filter_eq_self.mpr fun e he => ?_
    obtain ⟨s, hs, he⟩ := List.mem_flatMap.mp he
    obtain ⟨c, hc, rfl⟩ := List.mem_map.mp he
    have hne : c.source ≠ source := fun heq =>
      hnew s hs (List.mem_append_right _ (List.mem_map.mpr ⟨c, hc, heq⟩))
    simpa using hne
  rw [value_index]
  have hreplaced := (hr.replaceVariables source (Sheet.read r source text).value.declarations).replaceClasses
    source (Sheet.read r source text).value.classes
  have hlog : ((Log.ofReadings ss).replaceDeclarations source
        (Sheet.read r source text).value.declarations).replaceClasses source
          (Sheet.read r source text).value.classes =
      .ofReadings (ss ++ [(Sheet.read r source text).value]) := by
    simp only [Log.replaceDeclarations, Log.replaceClasses, Log.dropDeclarations, Log.dropClasses,
      Log.enterDeclarations, Log.enterClasses, hdeclarations, hclasses]
    simp [Log.ofReadings]
  exact hlog ▸ hreplaced

/-- A registry has the readings of some stylesheets, and others are to be indexed whose sources are
new to it and all different. -/
structure Ready (r : Registry) (ss : List Sheet) (sheets : List Stylesheet) : Prop where
  reflects : r.Reflects (.ofReadings ss)
  new : ∀ s ∈ ss, ∀ x ∈ sheets, x.source ∉ s.sources
  nodup : (sheets.map (·.source)).Nodup

theorem ready_empty (hsources : (sheets.map (·.source)).Nodup) : Ready ∅ [] sheets :=
  ⟨reflects_empty, fun _ hs => absurd hs List.not_mem_nil, hsources⟩

theorem Ready.index {ss : List Sheet} {x : Stylesheet} {rest : List Stylesheet}
    (hr : r.Ready ss (x :: rest)) :
    (r.index x.source x.text).value.2.Ready (ss ++ [(r.index x.source x.text).value.1]) rest := by
  obtain ⟨hreflects, hnew, hnodup⟩ := hr
  rw [List.map_cons, List.nodup_cons] at hnodup
  refine ⟨hreflects.index (fun s hs => hnew s hs x List.mem_cons_self) x.text, ?_, hnodup.2⟩
  intro s hs y hy hmem
  rcases List.mem_append.mp hs with hs | hs
  · exact hnew s hs y (List.mem_cons_of_mem x hy) hmem
  · obtain rfl := List.mem_singleton.mp hs
    have hsource : y.source = x.source := eq_of_mem_sources hmem
    exact hnodup.1 (hsource ▸ List.mem_map_of_mem hy)

/-- A registry into which stylesheets are indexed has their readings, one after the other. -/
theorem Ready.reflects_indexAll {ss : List Sheet} (hr : r.Ready ss sheets) :
    (r.indexAll sheets).Reflects (.ofReadings (ss ++ readings r sheets)) := by
  induction sheets generalizing r ss with
  | nil => simpa [Registry.indexAll, readings] using hr.reflects
  | cons x rest ih =>
    rw [indexAll_cons]
    simpa [readings] using ih hr.index

theorem Reflects.variablesSorted_eq {ss : List Sheet} (hr : r.Reflects (.ofReadings ss))
    (name : String) :
    r.variablesSorted name =
      inOrder specificity (ss.flatMap fun s => s.declarations.filter (·.name = name)) := by
  rw [hr.answers.variablesSorted, Log.ofReadings, entriesOf_flatMap]
  simp only [entriesOf_map]

theorem Reflects.classColors?_eq {ss : List Sheet} (hr : r.Reflects (.ofReadings ss))
    (name : String) :
    r.classColors? name = listed? (ss.flatMap fun s => s.classes.filter (·.name = name)) := by
  rw [hr.answers.classColors?, Log.ofReadings, entriesOf_flatMap]
  simp only [entriesOf_map]

theorem Reflects.mem_keys_iff {ss : List Sheet} (hr : r.Reflects (.ofReadings ss)) {name : String} :
    name ∈ r.declarations.keys ↔ ∃ s ∈ ss, ∃ d ∈ s.declarations, d.name = name := by
  rw [← Keyed.contains_iff, ← Registry.hasVariable, hr.answers.hasVariable]
  simp only [Log.ofReadings, List.mem_flatMap, List.mem_map, Prod.mk.injEq]
  constructor
  · rintro ⟨d, s, hs, _, hd, rfl, rfl⟩
    exact ⟨s, hs, _, hd, rfl⟩
  · rintro ⟨s, hs, d, hd, rfl⟩
    exact ⟨d, s, hs, d, hd, rfl, rfl⟩

/-! ### Each is read as with all in reach -/

/-- What is indexed later leaves a name alone that none of it declares. -/
theorem Ready.variablesSorted_indexAll {ss : List Sheet} (hr : r.Ready ss sheets) {name : String}
    (hname : ∀ x ∈ sheets, name ∉ Sheet.names x.text.toList) :
    (r.indexAll sheets).variablesSorted name = r.variablesSorted name := by
  have hnone : (readings r sheets).flatMap (fun s => s.declarations.filter (·.name = name)) = [] := by
    refine List.flatMap_eq_nil_iff.mpr fun s hs => List.filter_eq_nil_iff.mpr fun d hd => ?_
    obtain ⟨x, hx, r', rfl⟩ := exists_of_mem_readings hs
    have hd' : d.name ∈ Sheet.names x.text.toList :=
      Sheet.names_declared r' x.source x.text ▸ List.mem_map_of_mem hd
    have hne : d.name ≠ name := fun heq => hname x hx (heq ▸ hd')
    simpa using hne
  rw [hr.reflects_indexAll.variablesSorted_eq, hr.reflects.variablesSorted_eq, List.flatMap_append,
    hnone, List.append_nil]

theorem Ready.readings_eq {ss : List Sheet} (hr : r.Ready ss sheets) (hback : r.LooksBack sheets) :
    readings r sheets = sheets.map fun x => (Sheet.read (r.indexAll sheets) x.source x.text).value := by
  induction sheets generalizing r ss with
  | nil => rfl
  | cons x rest ih =>
    have hhead : Sheet.read r x.source x.text =
        Sheet.read (r.indexAll (x :: rest)) x.source x.text := by
      refine Sheet.read_congr fun name hname hown => ?_
      have hnone : ∀ y ∈ x :: rest, name ∉ Sheet.names y.text.toList := by
        intro y hy hmem
        rcases List.mem_cons.mp hy with rfl | hy
        · exact hown hmem
        · exact hback.1 y hy name hmem hname
      rw [valueOf?, valueOf?, hr.variablesSorted_indexAll hnone]
    rw [List.map_cons, ← hhead, indexAll_cons, ← ih hr.index hback.2]
    rfl

/-! ### The order makes no difference -/

/-- Registries that answer alike. -/
structure Alike (r r' : Registry) : Prop where
  variablesSorted : ∀ name, r.variablesSorted name = r'.variablesSorted name
  classColors? : ∀ name, r.classColors? name = r'.classColors? name
  keys : r.declarations.keys.Perm r'.declarations.keys

theorem flatMap_eq_of_perm {α β : Type} {f : α → List β} {xs ys : List α} (hperm : xs.Perm ys)
    (hone : xs.Pairwise fun x y => f x = [] ∨ f y = []) : xs.flatMap f = ys.flatMap f := by
  induction hperm with
  | nil => rfl
  | cons x _ ih => rw [List.flatMap_cons, List.flatMap_cons, ih hone.of_cons]
  | swap x y l =>
    have hxy := List.rel_of_pairwise_cons hone List.mem_cons_self
    simp only [List.flatMap_cons]
    rcases hxy with hnil | hnil
    · rw [hnil, List.nil_append, List.nil_append]
    · rw [hnil, List.nil_append, List.nil_append]
  | trans hperm _ ih ih' =>
    have hone' := (hperm.pairwise_iff fun hxy => hxy.symm).mp hone
    rw [ih hone, ih' hone']

theorem filter_eq_nil_or {α : Type} {key : α → String} {xs ys : List α}
    (hne : ∀ a ∈ xs, ∀ b ∈ ys, key a ≠ key b) (name : String) :
    xs.filter (key · = name) = [] ∨ ys.filter (key · = name) = [] := by
  by_cases hxs : ∃ a ∈ xs, key a = name
  · obtain ⟨a, ha, rfl⟩ := hxs
    refine .inr (List.filter_eq_nil_iff.mpr fun b hb => ?_)
    simpa using (hne a ha b hb).symm
  · refine .inl (List.filter_eq_nil_iff.mpr fun a ha => ?_)
    simpa using fun heq => hxs ⟨a, ha, heq⟩

theorem filter_written (r : Registry) (source text name : String) :
    (Sheet.written source text.toList).filter (·.name = name) =
      ((Sheet.declared r source text).filter (·.name = name)).map (·.unresolved) := by
  rw [← Sheet.written_declared r, List.filter_map]
  rfl

/-- What a name has in a registry, as it is written, does not depend on how references were
resolved. -/
theorem Reflects.unresolved_eq {g : Stylesheet → Registry}
    (hr : r.Reflects (.ofReadings (sheets.map fun x => (Sheet.read (g x) x.source x.text).value)))
    (name : String) :
    (r.variablesSorted name).map (·.unresolved) =
      inOrder specificity
        (sheets.flatMap fun x => (Sheet.written x.source x.text.toList).filter (·.name = name)) := by
  have hkey : ∀ d : Declaration, specificity d.unresolved = specificity d := fun _ => rfl
  rw [hr.variablesSorted_eq, map_inOrder hkey, List.flatMap_map, List.map_flatMap]
  congr 2
  funext x
  exact (filter_written (g x) x.source x.text name).symm

theorem valueOf?_eq (r : Registry) (name : String) :
    r.valueOf? name = ((r.variablesSorted name).map (·.unresolved)).head?.map (·.value) := by
  rw [List.head?_map, Option.map_map]
  rfl

/-- Registries that have the same readings in different orders answer alike, if no two of the readings
declare the same. -/
theorem Reflects.alike_of_perm {ss ss' : List Sheet} {r' : Registry}
    (hr : r.Reflects (.ofReadings ss)) (hr' : r'.Reflects (.ofReadings ss')) (hperm : ss.Perm ss')
    (hapart : ss.Pairwise Sheet.Apart) : r.Alike r' where
  variablesSorted name := by
    rw [hr.variablesSorted_eq, hr'.variablesSorted_eq]
    congr 1
    exact flatMap_eq_of_perm hperm (hapart.imp fun hap => filter_eq_nil_or hap.1 name)
  classColors? name := by
    rw [hr.classColors?_eq, hr'.classColors?_eq]
    congr 1
    exact flatMap_eq_of_perm hperm (hapart.imp fun hap => filter_eq_nil_or hap.2 name)
  keys := by
    refine (List.perm_ext_iff_of_nodup r.declarations.nodup r'.declarations.nodup).mpr fun name => ?_
    calc name ∈ r.declarations.keys ↔ ∃ s ∈ ss, ∃ d ∈ s.declarations, d.name = name := hr.mem_keys_iff
      _ ↔ ∃ s ∈ ss', ∃ d ∈ s.declarations, d.name = name := by simp only [hperm.mem_iff]
      _ ↔ name ∈ r'.declarations.keys := hr'.mem_keys_iff.symm

/-- Stylesheets that declare nothing in common, indexed in two orders in which none looks up what a
later one declares, make registries that answer alike. -/
theorem alike_of_looksBack (hperm : sheets.Perm sheets') (hsources : (sheets.map (·.source)).Nodup)
    (hapart : (readings ∅ sheets).Pairwise Sheet.Apart) (hback : LooksBack ∅ sheets)
    (hback' : LooksBack ∅ sheets') :
    ((∅ : Registry).indexAll sheets).Alike ((∅ : Registry).indexAll sheets') := by
  have hready : Ready ∅ [] sheets := ready_empty hsources
  have hready' : Ready ∅ [] sheets' := ready_empty ((hperm.map _).nodup_iff.mp hsources)
  have hr := hready.reflects_indexAll
  have hr' := hready'.reflects_indexAll
  rw [List.nil_append, hready.readings_eq hback] at hr
  rw [List.nil_append, hready'.readings_eq hback'] at hr'
  rw [hready.readings_eq hback] at hapart
  have hwritten : ∀ name, ((∅ : Registry).indexAll sheets).valueOf? name =
      ((∅ : Registry).indexAll sheets').valueOf? name := by
    intro name
    rw [valueOf?_eq, valueOf?_eq, hr.unresolved_eq, hr'.unresolved_eq]
    congr 3
    refine flatMap_eq_of_perm hperm ((List.pairwise_map.mp hapart).imp fun {x y} hap => ?_)
    rw [filter_written ((∅ : Registry).indexAll sheets), filter_written ((∅ : Registry).indexAll sheets)]
    simpa only [List.map_eq_nil_iff, Sheet.declared] using filter_eq_nil_or hap.1 name
  have hsame : ∀ x : Stylesheet, Sheet.read ((∅ : Registry).indexAll sheets) x.source x.text =
      Sheet.read ((∅ : Registry).indexAll sheets') x.source x.text :=
    fun x => Sheet.read_congr fun name _ _ => hwritten name
  simp only [← hsame] at hr'
  exact hr.alike_of_perm hr' (hperm.map _) hapart

end Registry

end Swatch
