import Mathlib.Data.List.Dedup
import Swatch.Proofs.Registry.Order

/-!
A registry beside a plain log of what is live. The log takes in each declaration at its end, and what
leaves the registry is struck out of it. Main statement: after any changes, all that a registry
answers can be read off the log.
-/

namespace Swatch.Registry

/-- A change of a registry. -/
inductive Change where
  | addVariable (name : String) (d : Declaration)
  | addClass (name : String) (c : ClassColor)
  | replaceVariables (source : String) (ds : List Declaration)
  | replaceClasses (source : String) (cs : List ClassColor)
  | replace (source : String) (ds : List Declaration) (cs : List ClassColor)
  | removeSource (source : String)
  | clear

def change (r : Registry) : Change → Registry
  | .addVariable name d => r.addVariable name d
  | .addClass name c => r.addClass name c
  | .replaceVariables source ds => r.replaceVariables source ds
  | .replaceClasses source cs => r.replaceClasses source cs
  | .replace source ds cs => r.replace source ds cs
  | .removeSource source => r.removeSource source
  | .clear => r.clear

def changes (r : Registry) (changes : List Change) : Registry :=
  changes.foldl change r

/-- The live declarations with the names that they were entered under, in the order in which they
came. -/
structure Log where
  declarations : List (String × Declaration)
  classes : List (String × ClassColor)

namespace Log

def empty : Log := ⟨[], []⟩

instance : EmptyCollection Log := ⟨empty⟩

def dropDeclarations (l : Log) (source : String) : Log :=
  { l with declarations := l.declarations.filter (·.2.source ≠ source) }

def dropClasses (l : Log) (source : String) : Log :=
  { l with classes := l.classes.filter (·.2.source ≠ source) }

def dropSource (l : Log) (source : String) : Log :=
  (l.dropDeclarations source).dropClasses source

def enterDeclarations (l : Log) (ds : List (String × Declaration)) : Log :=
  { l with declarations := l.declarations ++ ds }

def enterClasses (l : Log) (cs : List (String × ClassColor)) : Log :=
  { l with classes := l.classes ++ cs }

def replaceDeclarations (l : Log) (source : String) (ds : List Declaration) : Log :=
  (l.dropDeclarations source).enterDeclarations (ds.map fun d => (d.name, d))

def replaceClasses (l : Log) (source : String) (cs : List ClassColor) : Log :=
  (l.dropClasses source).enterClasses (cs.map fun c => (c.name, c))

def change (l : Log) : Change → Log
  | .addVariable name d => l.enterDeclarations [(name, d)]
  | .addClass name c => l.enterClasses [(name, c)]
  | .replaceVariables source ds => l.replaceDeclarations source ds
  | .replaceClasses source cs => l.replaceClasses source cs
  | .replace source ds cs => (l.replaceDeclarations source ds).replaceClasses source cs
  | .removeSource source => l.dropSource source
  | .clear => ∅

def changes (l : Log) (changes : List Change) : Log :=
  changes.foldl change l

end Log

/-! ### Tables of lists -/

section Table

variable {α : Type}

/-- What was entered under a name. -/
def entriesOf (name : String) (entries : List (String × α)) : List α :=
  (entries.filter (·.1 = name)).map (·.2)

def listed? (xs : List α) : Option (List α) :=
  if xs.isEmpty then none else some xs

/-- A way to keep lists: to put an element in is to arrange all of them anew, and to leave some out
does not depend on whether it is done before or after. -/
structure IsArrangement (arrange : List α → List α) (put : α → List α → List α) : Prop where
  isEmpty : ∀ xs, (arrange xs).isEmpty = xs.isEmpty
  append : ∀ xs a, arrange (xs ++ [a]) = put a (arrange xs)
  filter : ∀ p xs, (arrange xs).filter p = arrange (xs.filter p)

theorem isArrangement_id : IsArrangement (fun xs : List α => xs) fun a xs => xs ++ [a] :=
  ⟨fun _ => rfl, fun _ _ => rfl, fun _ _ => rfl⟩

/-- A table has what was entered under a name, arranged, and no list for a name under which nothing
was. -/
def Holds (arrange : List α → List α) (store : Keyed String (List α))
    (entries : List (String × α)) : Prop :=
  ∀ name, store.get? name = listed? (arrange (entriesOf name entries))

variable {arrange : List α → List α} {put : α → List α → List α} {store : Keyed String (List α)}
  {entries : List (String × α)}

@[simp] theorem entriesOf_append (name : String) (entries entries' : List (String × α)) :
    entriesOf name (entries ++ entries') = entriesOf name entries ++ entriesOf name entries' := by
  simp [entriesOf]

@[simp] theorem entriesOf_filter (name : String) (p : α → Bool) (entries : List (String × α)) :
    entriesOf name (entries.filter (p ·.2)) = (entriesOf name entries).filter p := by
  simp only [entriesOf, List.filter_map, List.filter_filter]
  exact congrArg (List.map _) (List.filter_congr fun e _ => Bool.and_comm _ _)

theorem entriesOf_flatMap {β : Type} (name : String) (xs : List β) (f : β → List (String × α)) :
    entriesOf name (xs.flatMap f) = xs.flatMap fun x => entriesOf name (f x) := by
  simp [entriesOf, List.filter_flatMap, List.map_flatMap]

theorem entriesOf_map (name : String) (key : α → String) (xs : List α) :
    entriesOf name (xs.map fun a => (key a, a)) = xs.filter (key · = name) := by
  simp [entriesOf, List.filter_map, Function.comp_def]

@[simp] theorem mem_entriesOf {name : String} {a : α} :
    a ∈ entriesOf name entries ↔ (name, a) ∈ entries := by
  simp [entriesOf]

theorem listed?_getD (xs : List α) : (listed? xs).getD [] = xs := by
  cases xs <;> rfl

theorem listed?_eq_some {xs ys : List α} : listed? xs = some ys ↔ ys = xs ∧ xs ≠ [] := by
  cases xs <;> simp [listed?, eq_comm]

theorem isSome_listed? {xs : List α} : (listed? xs).isSome = true ↔ ∃ a, a ∈ xs := by
  cases xs with
  | nil => simp [listed?]
  | cons a xs => exact ⟨fun _ => ⟨a, List.mem_cons_self⟩, fun _ => rfl⟩

theorem holds_empty (ha : IsArrangement arrange put) : Holds arrange ∅ ([] : List (String × α)) := by
  intro name
  have hnone := ha.isEmpty []
  simp only [List.isEmpty_nil, List.isEmpty_iff] at hnone
  simp [entriesOf, listed?, hnone]

theorem Holds.enter (hh : Holds arrange store entries) (ha : IsArrangement arrange put)
    (name : String) (a : α) :
    Holds arrange (store.update name fun xs => put a (xs.getD [])) (entries ++ [(name, a)]) := by
  intro name'
  rw [Keyed.update, Keyed.get?_set, entriesOf_append]
  by_cases hname : name' = name
  · subst hname
    have hall : put a (arrange (entriesOf name' entries)) =
        arrange (entriesOf name' entries ++ entriesOf name' [(name', a)]) := by
      simpa [entriesOf] using (ha.append (entriesOf name' entries) a).symm
    rw [if_pos rfl, hh, listed?_getD, hall, eq_comm, listed?_eq_some]
    refine ⟨rfl, ?_⟩
    rw [ne_eq, ← List.isEmpty_iff, ha.isEmpty, List.isEmpty_iff]
    simp [entriesOf]
  · have hother : entriesOf name' [(name, a)] = [] := by simp [entriesOf, Ne.symm hname]
    rw [if_neg hname, hh, hother, List.append_nil]

theorem Holds.keepEntries (hh : Holds arrange store entries) (ha : IsArrangement arrange put)
    (p : α → Bool) : Holds arrange (keepEntries store p) (entries.filter (p ·.2)) := by
  intro name
  rw [Registry.keepEntries, Keyed.get?_filter, Keyed.get?_map, hh, entriesOf_filter, ← ha.filter]
  generalize arrange (entriesOf name entries) = xs
  cases hkept : xs.filter p with
  | nil => cases xs <;> simp_all [listed?]
  | cons a kept => cases xs <;> simp_all [listed?]

theorem Holds.mem_values (hh : Holds arrange store entries)
    (harrange : ∀ xs (a : α), a ∈ arrange xs ↔ a ∈ xs) {a : α} :
    a ∈ store.values.flatten ↔ ∃ name, (name, a) ∈ entries := by
  simp only [List.mem_flatten, Keyed.mem_values_iff]
  constructor
  · rintro ⟨xs, ⟨name, hget⟩, hmem⟩
    obtain ⟨rfl, -⟩ := listed?_eq_some.mp ((hh name).symm.trans hget)
    exact ⟨name, by simpa [harrange] using hmem⟩
  · rintro ⟨name, hmem⟩
    have ha : a ∈ arrange (entriesOf name entries) := by simpa [harrange] using hmem
    refine ⟨_, ⟨name, (hh name).trans (listed?_eq_some.mpr ⟨rfl, ?_⟩)⟩, ha⟩
    exact List.ne_nil_of_mem ha

theorem Holds.contains_iff (hh : Holds arrange store entries) (ha : IsArrangement arrange put)
    (name : String) : store.contains name = true ↔ ∃ a, (name, a) ∈ entries := by
  rw [Keyed.contains_eq_isSome, hh]
  have hsame : (listed? (arrange (entriesOf name entries))).isSome =
      (listed? (entriesOf name entries)).isSome := by
    simp only [listed?, ha.isEmpty]
    split <;> rfl
  rw [hsame, isSome_listed?]
  simp

theorem Holds.size_eq (hh : Holds arrange store entries) (ha : IsArrangement arrange put) :
    store.size = (entries.map (·.1)).dedup.length := by
  have hkeys : store.keys.Perm (entries.map (·.1)).dedup := by
    refine (List.perm_ext_iff_of_nodup store.nodup (List.nodup_dedup _)).mpr fun name => ?_
    calc name ∈ store.keys ↔ store.contains name = true := Keyed.contains_iff.symm
      _ ↔ ∃ a, (name, a) ∈ entries := hh.contains_iff ha name
      _ ↔ name ∈ (entries.map (·.1)).dedup := by rw [List.mem_dedup, Keyed.mem_map_fst]
  rw [← hkeys.length_eq, Keyed.keys, List.length_map, Keyed.size]

end Table

/-! ### A registry keeps what its log has -/

theorem isArrangement_inOrder : IsArrangement (inOrder specificity) insertBySpecificity :=
  ⟨isEmpty_inOrder, fun ds d => (insertBySpecificity_inOrder ds d).symm, filter_inOrder⟩

structure Reflects (r : Registry) (l : Log) : Prop where
  declarations : Holds (inOrder specificity) r.declarations l.declarations
  classes : Holds (fun xs => xs) r.classes l.classes

variable {r : Registry} {l : Log}

theorem reflects_empty : Reflects ∅ ∅ :=
  ⟨holds_empty isArrangement_inOrder, holds_empty isArrangement_id⟩

theorem Reflects.addVariables (hr : r.Reflects l) (ds : List Declaration) :
    (ds.foldl (fun r d => r.addVariable d.name d) r).Reflects
      (l.enterDeclarations (ds.map fun d => (d.name, d))) := by
  induction ds generalizing r l with
  | nil => simpa [Log.enterDeclarations] using hr
  | cons d ds ih =>
    have hd : (r.addVariable d.name d).Reflects (l.enterDeclarations [(d.name, d)]) :=
      ⟨hr.declarations.enter isArrangement_inOrder d.name d, hr.classes⟩
    simpa [Log.enterDeclarations] using ih hd

theorem Reflects.addClasses (hr : r.Reflects l) (cs : List ClassColor) :
    (cs.foldl (fun r c => r.addClass c.name c) r).Reflects
      (l.enterClasses (cs.map fun c => (c.name, c))) := by
  induction cs generalizing r l with
  | nil => simpa [Log.enterClasses] using hr
  | cons c cs ih =>
    have hc : (r.addClass c.name c).Reflects (l.enterClasses [(c.name, c)]) :=
      ⟨hr.declarations, hr.classes.enter isArrangement_id c.name c⟩
    simpa [Log.enterClasses] using ih hc

theorem Reflects.replaceVariables (hr : r.Reflects l) (source : String) (ds : List Declaration) :
    (r.replaceVariables source ds).Reflects (l.replaceDeclarations source ds) := by
  have hcleared : Reflects
      { r with declarations := Registry.keepEntries r.declarations fun d => d.source ≠ source }
      (l.dropDeclarations source) :=
    ⟨hr.declarations.keepEntries isArrangement_inOrder _, hr.classes⟩
  exact hcleared.addVariables ds

theorem Reflects.replaceClasses (hr : r.Reflects l) (source : String) (cs : List ClassColor) :
    (r.replaceClasses source cs).Reflects (l.replaceClasses source cs) := by
  have hcleared : Reflects
      { r with classes := Registry.keepEntries r.classes fun c => c.source ≠ source }
      (l.dropClasses source) :=
    ⟨hr.declarations, hr.classes.keepEntries isArrangement_id _⟩
  exact hcleared.addClasses cs

theorem Reflects.change (hr : r.Reflects l) (c : Change) : (r.change c).Reflects (l.change c) := by
  cases c with
  | addVariable name d =>
      exact ⟨hr.declarations.enter isArrangement_inOrder name d, hr.classes⟩
  | addClass name c => exact ⟨hr.declarations, hr.classes.enter isArrangement_id name c⟩
  | replaceVariables source ds => exact hr.replaceVariables source ds
  | replaceClasses source cs => exact hr.replaceClasses source cs
  | replace source ds cs => exact (hr.replaceVariables source ds).replaceClasses source cs
  | removeSource source =>
      exact ⟨hr.declarations.keepEntries isArrangement_inOrder _,
        hr.classes.keepEntries isArrangement_id _⟩
  | clear => exact reflects_empty

theorem Reflects.changes (hr : r.Reflects l) (cs : List Change) :
    (r.changes cs).Reflects (l.changes cs) := by
  induction cs generalizing r l with
  | nil => exact hr
  | cons c cs ih => exact ih (hr.change c)

/-! ### What a registry answers -/

/-- All answers of a registry, read off a log. -/
structure Answers (r : Registry) (l : Log) : Prop where
  variablesSorted : ∀ name, r.variablesSorted name =
    inOrder specificity (entriesOf name l.declarations)
  stored? : ∀ name, r.stored? name = listed? (inOrder specificity (entriesOf name l.declarations))
  classColors? : ∀ name, r.classColors? name = listed? (entriesOf name l.classes)
  hasVariable : ∀ name, r.hasVariable name = true ↔ ∃ d, (name, d) ∈ l.declarations
  hasClass : ∀ name, r.hasClass name = true ↔ ∃ c, (name, c) ∈ l.classes
  variableCount : r.variableCount = (l.declarations.map (·.1)).dedup.length
  classCount : r.classCount = (l.classes.map (·.1)).dedup.length
  sources : ∀ source, source ∈ r.sources ↔
    (∃ e ∈ l.declarations, e.2.source = source) ∨ ∃ e ∈ l.classes, e.2.source = source
  sources_nodup : r.sources.Nodup

theorem nodup_eraseDups {α : Type} [DecidableEq α] (xs : List α) : xs.eraseDups.Nodup := by
  induction hlength : xs.length using Nat.strongRecOn generalizing xs with
  | _ n ih =>
    cases xs with
    | nil => simp
    | cons a xs =>
      rw [List.eraseDups_cons, List.nodup_cons]
      refine ⟨by simp [List.mem_eraseDups], ih _ ?_ _ rfl⟩
      have := List.length_filter_le (fun b => !b == a) xs
      simp only [List.length_cons] at hlength
      omega

theorem Reflects.answers (hr : r.Reflects l) : r.Answers l where
  variablesSorted name := by
    rw [Registry.variablesSorted, hr.declarations, listed?_getD]
    exact inOrder_inOrder _
  stored? name := by
    rw [Registry.stored?, hr.declarations]
    cases inOrder specificity (entriesOf name l.declarations) <;> rfl
  classColors? name := by
    rw [Registry.classColors?, hr.classes]
    cases entriesOf name l.classes <;> rfl
  hasVariable := hr.declarations.contains_iff isArrangement_inOrder
  hasClass := hr.classes.contains_iff isArrangement_id
  variableCount := hr.declarations.size_eq isArrangement_inOrder
  classCount := hr.classes.size_eq isArrangement_id
  sources source := by
    have hmem : ∀ xs (d : Declaration), d ∈ inOrder specificity xs ↔ d ∈ xs :=
      fun xs d => (List.mergeSort_perm xs _).mem_iff
    simp only [Registry.sources, List.mem_eraseDups, List.mem_append, List.mem_map,
      hr.declarations.mem_values hmem, hr.classes.mem_values fun _ _ => Iff.rfl]
    grind
  sources_nodup := nodup_eraseDups _

/-! ### The other sources -/

/-- A change strikes out and enters only what belongs to a source. -/
def Change.Concerns (source : String) : Change → Prop
  | .addVariable _ d => d.source = source
  | .addClass _ c => c.source = source
  | .replaceVariables source' ds => source' = source ∧ ∀ d ∈ ds, d.source = source
  | .replaceClasses source' cs => source' = source ∧ ∀ c ∈ cs, c.source = source
  | .replace source' ds cs =>
      source' = source ∧ (∀ d ∈ ds, d.source = source) ∧ ∀ c ∈ cs, c.source = source
  | .removeSource source' => source' = source
  | .clear => False

namespace Log

variable {source : String}

theorem dropSource_enterDeclarations {ds : List (String × Declaration)}
    (hds : ∀ d ∈ ds, d.2.source = source) (l : Log) :
    (l.enterDeclarations ds).dropSource source = l.dropSource source := by
  have hnone : ds.filter (·.2.source ≠ source) = [] := by
    simpa [List.filter_eq_nil_iff] using hds
  simp only [dropSource, dropDeclarations, enterDeclarations, List.filter_append, hnone,
    List.append_nil]

theorem dropSource_enterClasses {cs : List (String × ClassColor)}
    (hcs : ∀ c ∈ cs, c.2.source = source) (l : Log) :
    (l.enterClasses cs).dropSource source = l.dropSource source := by
  have hnone : cs.filter (·.2.source ≠ source) = [] := by
    simpa [List.filter_eq_nil_iff] using hcs
  simp only [dropSource, dropDeclarations, dropClasses, enterClasses, List.filter_append, hnone,
    List.append_nil]

theorem dropSource_replaceDeclarations {ds : List Declaration} (hds : ∀ d ∈ ds, d.source = source)
    (l : Log) : (l.replaceDeclarations source ds).dropSource source = l.dropSource source := by
  rw [replaceDeclarations, dropSource_enterDeclarations (by simpa using hds)]
  simp [dropSource, dropDeclarations]

theorem dropSource_replaceClasses {cs : List ClassColor} (hcs : ∀ c ∈ cs, c.source = source)
    (l : Log) : (l.replaceClasses source cs).dropSource source = l.dropSource source := by
  rw [replaceClasses, dropSource_enterClasses (by simpa using hcs)]
  simp [dropSource, dropDeclarations, dropClasses]

theorem dropSource_change {c : Change} (hc : c.Concerns source) (l : Log) :
    (l.change c).dropSource source = l.dropSource source := by
  cases c with
  | addVariable name d => exact dropSource_enterDeclarations (by simpa [Change.Concerns] using hc) l
  | addClass name c => exact dropSource_enterClasses (by simpa [Change.Concerns] using hc) l
  | replaceVariables source' ds =>
      obtain ⟨rfl, hds⟩ := hc
      exact dropSource_replaceDeclarations hds l
  | replaceClasses source' cs =>
      obtain ⟨rfl, hcs⟩ := hc
      exact dropSource_replaceClasses hcs l
  | replace source' ds cs =>
      obtain ⟨rfl, hds, hcs⟩ := hc
      exact (dropSource_replaceClasses hcs _).trans (dropSource_replaceDeclarations hds l)
  | removeSource source' =>
      obtain rfl := hc
      simp [Log.change, dropSource, dropDeclarations, dropClasses]
  | clear => exact hc.elim

end Log

theorem Answers.variables_others (ha : r.Answers l) (source name : String) :
    (r.variablesSorted name).filter (·.source ≠ source) =
      inOrder specificity (entriesOf name (l.dropSource source).declarations) := by
  rw [ha.variablesSorted, filter_inOrder, ← entriesOf_filter]
  rfl

theorem Answers.classes_others (ha : r.Answers l) (source name : String) :
    ((r.classColors? name).getD []).filter (·.source ≠ source) =
      entriesOf name (l.dropSource source).classes := by
  rw [ha.classColors?, listed?_getD, ← entriesOf_filter]
  rfl

/-- After any changes a registry answers what the log of them has, and a change that concerns one
source leaves what the others declare as it is, in the same order. -/
theorem answers_changes (cs : List Change) :
    ((∅ : Registry).changes cs).Answers ((∅ : Log).changes cs) ∧
      ∀ c source, Change.Concerns source c → ∀ name,
        ((((∅ : Registry).changes cs).change c).variablesSorted name).filter (·.source ≠ source) =
            (((∅ : Registry).changes cs).variablesSorted name).filter (·.source ≠ source) ∧
          (((((∅ : Registry).changes cs).change c).classColors? name).getD []).filter
              (·.source ≠ source) =
            ((((∅ : Registry).changes cs).classColors? name).getD []).filter (·.source ≠ source) := by
  have hr := reflects_empty.changes cs
  refine ⟨hr.answers, fun c source hc name => ?_⟩
  have hbefore := hr.answers
  have hafter := (hr.change c).answers
  rw [hafter.variables_others, hafter.classes_others, hbefore.variables_others,
    hbefore.classes_others, Log.dropSource_change hc]
  exact ⟨rfl, rfl⟩

/-- Two stylesheets that declare one name, the second of them twice. -/
def twoThemes : List Change :=
  let declared (source value : String) (kind : ContextKind) (specificity : Int) : Declaration :=
    ⟨"--accent", value, source, 0, ":root", ⟨kind, specificity, none, none⟩, none⟩
  [.replace "dark.css" [declared "dark.css" "#000" .classes 10] [],
    .replace "light.css" [declared "light.css" "#fff" .root 1, declared "light.css" "#eee" .classes 10]
      [⟨"title", "color", "red", "light.css", 3, ".title", none⟩]]

theorem answers_changes_twoThemes :
    ((∅ : Registry).changes twoThemes).Answers ((∅ : Log).changes twoThemes) ∧
      (((∅ : Registry).changes twoThemes).stored? "--accent").map (·.map (·.value)) =
        some ["#fff", "#000", "#eee"] ∧
      Change.Concerns "light.css" (.removeSource "light.css") ∧
      ((((∅ : Registry).changes twoThemes).change (.removeSource "light.css")).variablesSorted
          "--accent").filter (·.source ≠ "light.css") =
        (((∅ : Registry).changes twoThemes).variablesSorted "--accent").filter
          (·.source ≠ "light.css") :=
  ⟨(answers_changes twoThemes).1, by decide, rfl,
    ((answers_changes twoThemes).2 (.removeSource "light.css") "light.css" rfl "--accent").1⟩

end Swatch.Registry
