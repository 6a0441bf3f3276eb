import Swatch.Proofs.Registry.Log
import Swatch.Stylesheet.Sheet

/-!
What the reading of a stylesheet asks of the registry. Resolution looks names up, and of the
declaration that a name stands for it takes the value as it is written, not what that was resolved to.
Main statement: registries in which the names that are looked up, and that the stylesheet does not
declare itself, have the same written values give the same reading.
-/

namespace Swatch

def Declaration.unresolved (d : Declaration) : Declaration :=
  { d with resolved := none }

/-- The written value of what a name stands for. -/
def Scope.valueOf? (s : Scope) (name : String) : Option String :=
  (s.preferred? name).map (·.value)

theorem Scope.remaining_cons_lt_of_valueOf? {s : Scope} {visited : List String} {name value : String}
    (hv : name ∉ visited) (hvalue : s.valueOf? name = some value) :
    s.remaining (name :: visited) < s.remaining visited := by
  obtain ⟨d, hd, -⟩ := Option.map_eq_some_iff.mp hvalue
  exact remaining_cons_lt hv hd

namespace Resolution

variable {s s' : Scope} {visited : List String} {value : List Char}

/-! ### One value -/

section Settle

variable {note expand expand' : List Char → List Char → Traced (List Char)} {P : String → Prop}

theorem value_pass (hvalue : ∀ name spelling, (note name spelling).value = (expand name spelling).value)
    (value : List Char) : (pass note value).value = (pass expand value).value := by
  unfold pass
  induction Reference.segments value with
  | nil => rfl
  | cons segment rest ih =>
    cases segment with
    | literal c => simp [ih]
    | reference name spelling => simp [ih, hvalue]

theorem value_settle
    (hvalue : ∀ name spelling, (note name spelling).value = (expand name spelling).value)
    (passes : Nat) (value : List Char) :
    (settle note passes value).value = (settle expand passes value).value := by
  induction passes generalizing value with
  | zero => rfl
  | succ passes ih =>
    simp only [settle, value_pass hvalue value]
    split
    · exact value_pass hvalue value
    · exact ih _

theorem pass_congr
    (hexpand : ∀ name spelling, (∀ x ∈ (note name spelling).cycles, P x) →
      expand name spelling = expand' name spelling)
    (hnoted : ∀ x ∈ (pass note value).cycles, P x) : pass expand value = pass expand' value := by
  unfold pass at hnoted ⊢
  generalize Reference.segments value = segments at hnoted ⊢
  induction segments with
  | nil => rfl
  | cons segment rest ih =>
    simp only [List.foldr_cons, List.mem_append] at hnoted ⊢
    rw [ih fun x hx => hnoted x (.inr hx)]
    cases segment with
    | literal c => rfl
    | reference name spelling => simp only [hexpand name spelling fun x hx => hnoted x (.inl hx)]

/-- What a value settles to depends only on what is made of the references that are met. -/
theorem settle_congr
    (hvalue : ∀ name spelling, (note name spelling).value = (expand name spelling).value)
    (hexpand : ∀ name spelling, (∀ x ∈ (note name spelling).cycles, P x) →
      expand name spelling = expand' name spelling)
    {passes : Nat} (hnoted : ∀ x ∈ (settle note passes value).cycles, P x) :
    settle expand passes value = settle expand' passes value := by
  induction passes generalizing value with
  | zero => rfl
  | succ passes ih =>
    have hpass : (pass note value).value = (pass expand value).value := value_pass hvalue value
    simp only [settle, hpass] at hnoted ⊢
    by_cases hsettled : (pass expand value).value = value
    · rw [if_pos hsettled] at hnoted
      rw [← pass_congr hexpand hnoted]
      simp only [hsettled, if_true]
    · rw [if_neg hsettled] at hnoted
      simp only [List.mem_append] at hnoted
      rw [← pass_congr hexpand fun x hx => hnoted x (.inl hx), if_neg hsettled, if_neg hsettled,
        ih fun x hx => hnoted x (.inr hx)]

end Settle

/-- Resolution that notes the names that it looks up, and not the circular references. -/
def noting (s : Scope) (visited : List String) (value : List Char) : Traced (List Char) :=
  settle (fun name spelling =>
    let name := String.ofList name
    if _h : name ∈ visited then pure spelling
    else
      match _hvalue : s.valueOf? name with
      | none => ⟨spelling, [name]⟩
      | some value =>
        let rest := noting s (name :: visited) value.toList
        ⟨rest.value, name :: rest.cycles⟩) maxPasses value
termination_by s.remaining visited
decreasing_by exact Scope.remaining_cons_lt_of_valueOf? ‹_› ‹_›

/-- The names that are looked up while a value is resolved. -/
def lookUps (s : Scope) (visited : List String) (value : List Char) : List String :=
  (noting s visited value).cycles

/-- What becomes of a reference in a value. -/
def expand (s : Scope) (visited : List String) (name spelling : List Char) : Traced (List Char) :=
  let name := String.ofList name
  if name ∈ visited then ⟨spelling, [name]⟩
  else
    match s.valueOf? name with
    | none => pure spelling
    | some value => resolve s (name :: visited) value.toList

theorem resolve_eq (s : Scope) (visited : List String) (value : List Char) :
    resolve s visited value = settle (expand s visited) maxPasses value := by
  rw [resolve]
  congr 1
  funext name spelling
  simp only [expand, Scope.valueOf?]
  by_cases hv : String.ofList name ∈ visited
  · simp [hv]
  · simp only [hv, dite_false, if_false]
    split
    · rename_i hd
      rw [hd]
      rfl
    · rename_i d hd
      rw [hd]
      rfl

/-- What is noted of a reference in a value. -/
def expandNoting (s : Scope) (visited : List String) (name spelling : List Char) :
    Traced (List Char) :=
  let name := String.ofList name
  if name ∈ visited then pure spelling
  else
    match s.valueOf? name with
    | none => ⟨spelling, [name]⟩
    | some value =>
      let rest := noting s (name :: visited) value.toList
      ⟨rest.value, name :: rest.cycles⟩

theorem noting_eq (s : Scope) (visited : List String) (value : List Char) :
    noting s visited value = settle (expandNoting s visited) maxPasses value := by
  rw [noting]
  congr 1
  funext name spelling
  simp only [expandNoting]
  split
  · rfl
  · split
    all_goals simp only [*]

theorem value_noting (s : Scope) (visited : List String) (value : List Char) :
    (noting s visited value).value = (resolve s visited value).value := by
  induction hn : s.remaining visited using Nat.strongRecOn generalizing visited value with
  | _ n ih =>
    rw [noting_eq, resolve_eq]
    refine value_settle (fun name spelling => ?_) maxPasses value
    simp only [expandNoting, expand]
    split
    · rfl
    · rename_i hv
      split
      · rfl
      · rename_i value' hvalue
        exact ih _ (hn ▸ Scope.remaining_cons_lt_of_valueOf? hv hvalue) _ _ rfl

/-- What a value resolves to depends only on the written values of the names that are looked up. -/
theorem resolve_congr (hsame : ∀ name ∈ lookUps s visited value, s.valueOf? name = s'.valueOf? name) :
    resolve s visited value = resolve s' visited value := by
  induction hn : s.remaining visited using Nat.strongRecOn generalizing visited value with
  | _ n ih =>
    rw [lookUps, noting_eq] at hsame
    rw [resolve_eq, resolve_eq]
    refine settle_congr (fun name spelling => ?_) (fun name spelling hnoted => ?_) hsame
    · simp only [expandNoting, expand]
      split
      · rfl
      · split
        · rfl
        · exact value_noting _ _ _
    · simp only [expandNoting] at hnoted
      simp only [expand]
      by_cases hv : String.ofList name ∈ visited
      · simp only [hv, if_true]
      · simp only [hv, if_false] at hnoted ⊢
        cases hvalue : s.valueOf? (String.ofList name) with
        | none =>
          simp only [hvalue] at hnoted
          rw [← hnoted (String.ofList name) (by simp), hvalue]
        | some value' =>
          simp only [hvalue, List.mem_cons, forall_eq_or_imp] at hnoted
          rw [← hnoted.1]
          exact ih _ (hn ▸ Scope.remaining_cons_lt_of_valueOf? hv hvalue) hnoted.2 rfl

end Resolution

/-! ### A stylesheet -/

/-- The written value of the declaration that a name stands for in a registry. -/
def Registry.valueOf? (r : Registry) (name : String) : Option String :=
  (r.variablesSorted name).head?.map (·.value)

theorem Scope.valueOf?_congr {locals : Keyed String (List Declaration)} {r r' : Registry}
    {name : String} (hsame : locals.get? name = none → r.valueOf? name = r'.valueOf? name)
    (hlisted : locals.get? name ≠ some []) :
    Scope.valueOf? ⟨locals, r⟩ name = Scope.valueOf? ⟨locals, r'⟩ name := by
  unfold Scope.valueOf? Scope.preferred?
  cases hget : locals.get? name with
  | none => exact hsame hget
  | some ds =>
    cases ds with
    | nil => exact absurd hget hlisted
    | cons d ds => rfl

theorem Traced.bind_congr {α β : Type} {x : Traced α} {f g : α → Traced β}
    (hsame : f x.value = g x.value) : x >>= f = x >>= g :=
  Traced.ext (by rw [value_bind, value_bind, hsame]) (by rw [cycles_bind, cycles_bind, hsame])

theorem Traced.mapM_congr {α β : Type} {f g : α → Traced β} {xs : List α}
    (hsame : ∀ x ∈ xs, f x = g x) : xs.mapM f = xs.mapM g := by
  induction xs with
  | nil => rfl
  | cons x xs ih =>
    rw [List.mapM_cons, List.mapM_cons, hsame x List.mem_cons_self,
      ih fun y hy => hsame y (List.mem_cons_of_mem x hy)]

namespace Sheet

open Registry (Holds inOrder isArrangement_id listed? listed?_eq_some specificity)

variable {r r' : Registry} {source text : String}

theorem get?_byName (ds : List Declaration) (name : String) :
    (byName ds).get? name = (listed? (ds.filter (·.name = name))).map (inOrder specificity) := by
  have hgrouped : ∀ (t : Keyed String (List Declaration)) entries,
      Holds (fun xs => xs) t entries →
      Holds (fun xs => xs)
        (ds.foldl (fun t d => Keyed.update t d.name fun earlier => earlier.getD [] ++ [d]) t)
        (entries ++ ds.map fun d => (d.name, d)) := by
    induction ds with
    | nil => simp
    | cons d ds ih =>
      intro t entries hholds
      simpa using ih _ _ (hholds.enter isArrangement_id d.name d)
  have hall := hgrouped ∅ [] (Registry.holds_empty isArrangement_id) name
  rw [List.nil_append, Registry.entriesOf_map] at hall
  rw [byName, Keyed.get?_map, hall]
  rfl

/-- The names of the custom properties that a text declares. -/
def names (text : List Char) : List String :=
  (CustomProperty.all text).map (·.name)

theorem valueOf?_congr_byName {ds : List Declaration} {name : String}
    (hsame : name ∉ ds.map (·.name) → r.valueOf? name = r'.valueOf? name) :
    Scope.valueOf? ⟨byName ds, r⟩ name = Scope.valueOf? ⟨byName ds, r'⟩ name := by
  refine Scope.valueOf?_congr (fun hnone => hsame fun hmem => ?_) fun hempty => ?_
  · obtain ⟨d, hd, rfl⟩ := List.mem_map.mp hmem
    rw [get?_byName, Option.map_eq_none_iff] at hnone
    have hfound : d ∈ ds.filter (·.name = d.name) := List.mem_filter.mpr ⟨hd, by simp⟩
    cases hds : ds.filter (·.name = d.name) with
    | nil => simp [hds] at hfound
    | cons d' ds' => simp [listed?, hds] at hnone
  · rw [get?_byName] at hempty
    obtain ⟨ds', hds', hnil⟩ := Option.map_eq_some_iff.mp hempty
    obtain ⟨rfl, hne⟩ := listed?_eq_some.mp hds'
    have hnone : (inOrder specificity (ds.filter (·.name = name))).isEmpty = _ :=
      Registry.isEmpty_inOrder _
    rw [hnil, List.isEmpty_nil, eq_comm, List.isEmpty_iff] at hnone
    exact hne hnone

/-- The declarations of a stylesheet before any of them is resolved. -/
def written (source : String) (text : List Char) : List Declaration :=
  (CustomProperty.all text).map (declaration source text (LineIndex.ofChars text))

/-- The declarations of a stylesheet as it gives them to the registry. -/
def declared (r : Registry) (source text : String) : List Declaration :=
  (read r source text).value.declarations

theorem names_written (source : String) (text : List Char) :
    (written source text).map (·.name) = names text := by
  simp [written, names, declaration]

/-- What a registry has makes no difference to what a stylesheet declares before it is resolved. -/
theorem written_declared (r : Registry) (source text : String) :
    (declared r source text).map (·.unresolved) = written source text.toList := by
  simp [Declaration.unresolved, declared, read, variablesAt, written, resolved, declaration, Function.comp_def]

theorem names_declared (r : Registry) (source text : String) :
    (declared r source text).map (·.name) = names text.toList := by
  rw [← names_written source, ← written_declared r, List.map_map]
  rfl

/-- The names that are looked up while a stylesheet is read: for the values of its declarations, and
for those of its classes that are not colours as they stand. -/
def lookUps (r : Registry) (source text : String) : List String :=
  let ds := written source text.toList
  let rules := (Text.hits ClassRule.read? text.toList).map (·.value.value)
  ds.flatMap (fun d => Resolution.lookUps ⟨byName ds, r⟩ [d.name] d.value.toList) ++
    (rules.filter (Selector.occurs "var(")).flatMap
      (Resolution.lookUps ⟨byName (declared r source text), r⟩ [])

theorem variablesAt_congr
    (hsame : ∀ name ∈ lookUps r source text, name ∉ names text.toList →
      r.valueOf? name = r'.valueOf? name) :
    variablesAt r source text.toList (LineIndex.ofChars text.toList) =
      variablesAt r' source text.toList (LineIndex.ofChars text.toList) := by
  have hds : ((CustomProperty.all text.toList).map fun p =>
      (p.start, declaration source text.toList (LineIndex.ofChars text.toList) p)).map (·.2) =
        written source text.toList := by
    rw [List.map_map]
    rfl
  simp only [variablesAt, hds]
  refine Traced.mapM_congr fun (start, d) hmem => ?_
  have hd : d ∈ written source text.toList := hds ▸ List.mem_map_of_mem hmem
  have hresolved : Resolution.resolve ⟨byName (written source text.toList), r⟩ [d.name] d.value.toList =
      Resolution.resolve ⟨byName (written source text.toList), r'⟩ [d.name] d.value.toList := by
    refine Resolution.resolve_congr fun name hname => valueOf?_congr_byName fun hown => ?_
    refine hsame name (List.mem_append_left _ (List.mem_flatMap.mpr ⟨d, hd, hname⟩)) ?_
    rwa [names_written] at hown
  simp only [resolved, Resolution.resolveText, hresolved]

theorem classColors_congr
    (hsame : ∀ name ∈ lookUps r source text, name ∉ names text.toList →
      r.valueOf? name = r'.valueOf? name) :
    classColors ⟨byName (declared r source text), r⟩ source text.toList
        (LineIndex.ofChars text.toList) =
      classColors ⟨byName (declared r source text), r'⟩ source text.toList
        (LineIndex.ofChars text.toList) := by
  unfold classColors
  congr 1
  refine Traced.mapM_congr fun hit hhit => ?_
  simp only [classColor?]
  by_cases hrefers : Selector.occurs "var(" hit.value.value = true
  · have hresolved :
        Resolution.resolve ⟨byName (declared r source text), r⟩ [] hit.value.value =
          Resolution.resolve ⟨byName (declared r source text), r'⟩ [] hit.value.value := by
      refine Resolution.resolve_congr fun name hname => valueOf?_congr_byName fun hown => ?_
      refine hsame name (List.mem_append_right _
        (List.mem_flatMap.mpr ⟨hit.value.value, ?_, hname⟩)) ?_
      · exact List.mem_filter.mpr ⟨List.mem_map_of_mem hhit, hrefers⟩
      · rwa [names_declared] at hown
    simp only [hrefers, hresolved]
  · simp only [hrefers]
    rfl

/-- The reading of a stylesheet depends only on the written values of the names that are looked up
for it and that it does not declare itself. -/
theorem read_congr
    (hsame : ∀ name ∈ lookUps r source text, name ∉ names text.toList →
      r.valueOf? name = r'.valueOf? name) : read r source text = read r' source text := by
  have hclasses := classColors_congr hsame
  simp only [declared, read, Traced.value_bind, Traced.value_pure] at hclasses
  simp only [read, ← variablesAt_congr hsame, bind, pure, hclasses]

end Sheet

end Swatch
