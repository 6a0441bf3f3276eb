import Swatch.Proofs.Detection.Occurrence
import Swatch.Proofs.Detection.Order
import Swatch.Proofs.Registry.Reindexing

/-!
A text's own declarations come before those of the registry. Main statement: what a registry has for a
name that the text declares makes no difference to what is found in the text, and a reference to such a
name is found exactly when the text's own foremost declaration of it resolves to a colour.
-/

namespace Swatch

open Text

/-! ### The foremost declaration -/

namespace Sheet

open Registry (inOrder listed? specificity)

variable {name source text : String} {ds : List Declaration} {d : Declaration} {r : Registry}

/-- The first of the least specific declarations of a name. -/
def IsForemost (name : String) (ds : List Declaration) (d : Declaration) : Prop :=
  ∃ front back, ds = front ++ d :: back ∧ d.name = name ∧
    (∀ e ∈ front, e.name = name → d.context.specificity < e.context.specificity) ∧
    ∀ e ∈ back, e.name = name → d.context.specificity ≤ e.context.specificity

theorem IsForemost.mem (hd : IsForemost name ds d) : d ∈ ds := by
  obtain ⟨front, back, rfl, -⟩ := hd
  exact List.mem_append_right front List.mem_cons_self

theorem IsForemost.le (hd : IsForemost name ds d) :
    ∀ e ∈ ds, e.name = name → d.context.specificity ≤ e.context.specificity := by
  obtain ⟨front, back, rfl, -, hfront, hback⟩ := hd
  intro e he hname
  rcases List.mem_append.mp he with he | he
  · exact Int.le_of_lt (hfront e he hname)
  · rcases List.mem_cons.mp he with rfl | he
    · exact Int.le_refl _
    · exact hback e he hname

theorem exists_isForemost (hname : name ∈ ds.map (·.name)) : ∃ d, IsForemost name ds d := by
  induction ds with
  | nil => cases hname
  | cons e ds ih =>
    by_cases hmore : name ∈ ds.map (·.name)
    · obtain ⟨d, hd⟩ := ih hmore
      by_cases he : e.name = name ∧ e.context.specificity ≤ d.context.specificity
      · refine ⟨e, [], ds, rfl, he.1, by simp, fun e' he' hname' => ?_⟩
        exact Int.le_trans he.2 (hd.le e' he' hname')
      · obtain ⟨front, back, rfl, hdname, hfront, hback⟩ := hd
        refine ⟨d, e :: front, back, rfl, hdname, ?_, hback⟩
        rw [List.forall_mem_cons]
        exact ⟨fun hename => Int.lt_of_not_ge fun hle => he ⟨hename, hle⟩, hfront⟩
    · have he : e.name = name := by
        rcases List.mem_cons.mp hname with rfl | hmem
        · rfl
        · exact absurd hmem hmore
      refine ⟨e, [], ds, rfl, he, by simp, fun e' he' hname' => ?_⟩
      exact absurd (List.mem_map.mpr ⟨e', he', hname'⟩) hmore

/-- The foremost declaration is the one that comes first by ascending specificity. -/
theorem IsForemost.head?_inOrder (hd : IsForemost name ds d) :
    (inOrder specificity (ds.filter (·.name = name))).head? = some d := by
  have hmem : d ∈ ds.filter (·.name = name) := by
    obtain ⟨-, -, -, hname, -⟩ := id hd
    simp [hd.mem, hname]
  have hequal : (ds.filter (·.name = name)).filter (specificity · = specificity d) =
      d :: ((ds.filter (·.name = name)).filter (specificity · = specificity d)).tail := by
    obtain ⟨front, back, rfl, hname, hfront, -⟩ := hd
    have hnil : (front.filter (·.name = name)).filter (specificity · = specificity d) = [] := by
      simp only [List.filter_eq_nil_iff, List.mem_filter, decide_eq_true_eq, and_imp]
      exact fun e he hename heq => Int.ne_of_gt (hfront e he hename) heq
    simp [hname, hnil]
  cases hxs : inOrder specificity (ds.filter (·.name = name)) with
  | nil =>
    have hempty : (inOrder specificity (ds.filter (·.name = name))).isEmpty = _ :=
      Registry.isEmpty_inOrder _
    rw [hxs, List.isEmpty_nil, eq_comm, List.isEmpty_iff] at hempty
    rw [hempty] at hmem
    cases hmem
  | cons a more =>
    have hhead : (inOrder specificity (ds.filter (·.name = name))).head? = some a := by
      rw [hxs, List.head?_cons]
    have ha := List.mem_filter.mp (Registry.mem_of_head?_inOrder hhead)
    have hkey : specificity a = specificity d := Int.le_antisymm
      (Registry.key_le_of_head?_inOrder hhead d hmem) (hd.le a ha.1 (of_decide_eq_true ha.2))
    have hsame := Registry.filter_key_inOrder specificity (ds.filter (·.name = name)) (specificity d)
    rw [hxs, List.filter_cons_of_pos (by simp [hkey]), hequal] at hsame
    rw [List.head?_cons, (List.cons.inj hsame).1]

theorem IsForemost.unique {d' : Declaration} (hd : IsForemost name ds d) (hd' : IsForemost name ds d') :
    d = d' :=
  Option.some.inj (hd.head?_inOrder.symm.trans hd'.head?_inOrder)

/-- A name that a text declares stands for the foremost declaration of it, whatever the registry has. -/
theorem IsForemost.preferred? (hd : IsForemost name ds d) (r : Registry) :
    Scope.preferred? ⟨byName ds, r⟩ name = some d := by
  have hhead := hd.head?_inOrder
  obtain ⟨rest, hrest⟩ := List.head?_eq_some_iff.mp hhead
  have hne : ds.filter (·.name = name) ≠ [] := by
    obtain ⟨-, -, -, hname, -⟩ := id hd
    exact List.ne_nil_of_mem (List.mem_filter.mpr ⟨hd.mem, by simpa using hname⟩)
  have hget : (byName ds).get? name = some (d :: rest) := by
    rw [get?_byName, Registry.listed?_eq_some.mpr ⟨rfl, hne⟩, Option.map_some, hrest]
  simp only [Scope.preferred?, hget]

theorem preferred?_of_notMem (hname : name ∉ ds.map (·.name)) (r : Registry) :
    Scope.preferred? ⟨byName ds, r⟩ name = (r.variablesSorted name).head? := by
  have hnil : ds.filter (·.name = name) = [] :=
    List.filter_eq_nil_iff.mpr fun d hd heq =>
      hname (List.mem_map.mpr ⟨d, hd, of_decide_eq_true heq⟩)
  have hget : (byName ds).get? name = none := by
    rw [get?_byName, hnil]
    rfl
  simp only [Scope.preferred?, hget]

theorem exists_resolved (hd : d ∈ declared r source text) : ∃ value, d.resolved = some value := by
  simp only [declared, read, variablesAt, Traced.value_bind, Traced.value_pure, Traced.value_mapM,
    List.map_map, List.mem_map] at hd
  obtain ⟨p, -, rfl⟩ := hd
  exact ⟨_, rfl⟩

end Sheet

/-! ### Registries that a text does not tell apart -/

namespace Registry

/-- Registries that have the same for every class, and for every name but some. -/
structure AgreesBeyond (r r' : Registry) (names : List String) : Prop where
  variablesSorted : ∀ name ∉ names, r.variablesSorted name = r'.variablesSorted name
  classColors? : ∀ name, r.classColors? name = r'.classColors? name

/-- Every colour of a class has a resolved value. -/
def ResolvesClasses (r : Registry) : Prop :=
  ∀ name cs, r.classes.get? name = some cs →
    ∀ c ∈ cs, ∃ value, c.resolved = some value ∧ value ≠ ""

variable {r r' : Registry} {names : List String} {name : String}

theorem AgreesBeyond.preferred? {ds : List Declaration} (ha : r.AgreesBeyond r' (ds.map (·.name)))
    (name : String) :
    Scope.preferred? ⟨Sheet.byName ds, r⟩ name = Scope.preferred? ⟨Sheet.byName ds, r'⟩ name := by
  by_cases hname : name ∈ ds.map (·.name)
  · obtain ⟨d, hd⟩ := Sheet.exists_isForemost hname
    rw [hd.preferred?, hd.preferred?]
  · rw [Sheet.preferred?_of_notMem hname, Sheet.preferred?_of_notMem hname, ha.variablesSorted name hname]

theorem agreesBeyond_addVariable (hname : name ∈ names) (r : Registry) (d : Declaration) :
    r.AgreesBeyond (r.addVariable name d) names := by
  refine ⟨fun name' hname' => ?_, fun _ => rfl⟩
  have hne : name' ≠ name := fun heq => hname' (heq ▸ hname)
  simp [variablesSorted, addVariable, Keyed.update, hne]

theorem resolvesClasses_empty : ResolvesClasses ∅ := by
  intro name cs hget
  cases hget

theorem ResolvesClasses.addClass (hr : r.ResolvesClasses) (name : String) {c : ClassColor}
    (hc : ∃ value, c.resolved = some value ∧ value ≠ "") : (r.addClass name c).ResolvesClasses := by
  intro name' cs hget c' hc'
  rw [Registry.addClass, Keyed.update, Keyed.get?_set] at hget
  by_cases hname : name' = name
  · rw [if_pos hname, Option.some.injEq] at hget
    subst hget
    rcases List.mem_append.mp hc' with hold | hnew
    · cases hbefore : r.classes.get? name with
      | none => simp [hbefore] at hold
      | some cs => exact hr name cs hbefore c' (by simpa [hbefore] using hold)
    · rwa [List.mem_singleton.mp hnew]
  · rw [if_neg hname] at hget
    exact hr name' cs hget c' hc'

theorem classes_addVariables (ds : List Declaration) (r : Registry) :
    (ds.foldl (fun r d => r.addVariable d.name d) r).classes = r.classes := by
  induction ds generalizing r with
  | nil => rfl
  | cons d ds ih => exact ih _

theorem ResolvesClasses.replace (hr : r.ResolvesClasses) (source : String) (ds : List Declaration)
    {cs : List ClassColor} (hcs : ∀ c ∈ cs, ∃ value, c.resolved = some value ∧ value ≠ "") :
    (r.replace source ds cs).ResolvesClasses := by
  rw [Registry.replace, replaceClasses]
  have hkept : ResolvesClasses { r.replaceVariables source ds with
      classes := keepEntries (r.replaceVariables source ds).classes fun c => c.source ≠ source } := by
    intro name cs' hget c hc
    have hclasses : (r.replaceVariables source ds).classes = r.classes := classes_addVariables ds _
    simp only [hclasses] at hget
    rw [keepEntries, Keyed.get?_filter, Keyed.get?_map] at hget
    obtain ⟨hmap, -⟩ := Option.filter_eq_some_iff.mp hget
    obtain ⟨earlier, hearlier, rfl⟩ := Option.map_eq_some_iff.mp hmap
    exact hr name earlier hearlier c (List.mem_of_mem_filter hc)
  generalize Registry.mk _ _ = kept at hkept
  induction cs generalizing kept with
  | nil => exact hkept
  | cons c cs ih =>
    exact ih (fun c' hc' => hcs c' (List.mem_cons_of_mem c hc')) _
      (hkept.addClass c.name (hcs c List.mem_cons_self))

/-- The colours that a stylesheet gives to classes are written out. -/
theorem css_ne_empty {color : Color Float} (hcolor : color.IsFinite) : color.css ≠ "" := by
  have hcss := hcolor.css?_eq
  intro hempty
  rw [hempty] at hcss
  simp only [Color.css?, bind, Except.bind, pure, Except.pure] at hcss
  repeat' split at hcss
  all_goals simp [Color.rgbText, Color.rgbaText] at hcss

theorem ResolvesClasses.index (hr : r.ResolvesClasses) (source text : String) :
    (r.index source text).value.2.ResolvesClasses := by
  rw [value_index]
  refine hr.replace source _ fun c hc => ?_
  obtain ⟨color, hcolor, hresolved⟩ := Sheet.exists_color_of_mem_classes hc
  exact ⟨color.css, hresolved, css_ne_empty (Color.isFinite_of_ofChars? hcolor)⟩

/-- Stylesheets give only resolved colours to classes. -/
theorem ResolvesClasses.indexAll (hr : r.ResolvesClasses) (sheets : List Stylesheet) :
    (r.indexAll sheets).ResolvesClasses := by
  induction sheets generalizing r with
  | nil => exact hr
  | cons s rest ih => exact ih (hr.index s.source s.text)

end Registry

namespace Detection

open Reference (Spells)

variable {r r' : Registry} {source text : String}

/-! ### The passes in the reach of another registry -/

theorem resolve_congr_byName {ds : List Declaration} (ha : r.AgreesBeyond r' (ds.map (·.name)))
    (visited : List String) (value : List Char) :
    Resolution.resolve ⟨Sheet.byName ds, r⟩ visited value =
      Resolution.resolve ⟨Sheet.byName ds, r'⟩ visited value :=
  Resolution.resolve_congr fun name _ => congrArg (Option.map _) (ha.preferred? name)

theorem scope_take (r : Registry) (source text : String) :
    (Snapshot.take r source text.toList).value.scope = ⟨Sheet.byName (Sheet.declared r source text), r⟩ :=
  rfl

theorem colorOf?_congr_byName {ds : List Declaration} (ha : r.AgreesBeyond r' (ds.map (·.name)))
    (name : String) (wrap : String → String) :
    colorOf? ⟨Sheet.byName ds, r⟩ name wrap = colorOf? ⟨Sheet.byName ds, r'⟩ name wrap := by
  simp only [colorOf?, ha.preferred?, Resolution.resolveDeclaration, Resolution.resolveText,
    resolve_congr_byName ha]

theorem classValue_of_resolved {c : ClassColor} {value : String} (hvalue : c.resolved = some value)
    (hne : value ≠ "") (r : Registry) : classValue r c = pure value := by
  have hempty : value.isEmpty = false := by simpa [String.isEmpty_eq_false_iff] using hne
  simp only [classValue, hvalue, hempty]
  rfl

/-- A colour of a class that is resolved needs nothing else of a registry. -/
theorem classNames_congr_of_resolves {s : Snapshot} {names : List String}
    (ha : s.scope.registry.AgreesBeyond r' names) (hresolves : s.scope.registry.ResolvesClasses) :
    classNames s = classNames (s.within r') := by
  have hvalue : ∀ name c cs, r'.classColors? name = some (c :: cs) →
      classValue s.scope.registry c = classValue r' c := by
    intro name c cs hcs
    rw [← ha.classColors?, Registry.classColors?] at hcs
    split at hcs
    · rename_i hget
      obtain ⟨value, hvalue, hne⟩ := hresolves name _ hget c (Option.some.inj hcs ▸ List.mem_cons_self)
      rw [classValue_of_resolved hvalue hne, classValue_of_resolved hvalue hne]
    · cases hcs
  unfold classNames
  refine congrArg (· >>= _) (Traced.mapM_congr fun hit _ => Traced.mapM_congr fun word _ => ?_)
  simp only [Snapshot.within, ha.classColors?]
  split
  · rename_i c cs hcs
    rw [hvalue _ c cs hcs]
    rfl
  · rfl

theorem declarations_congr_of_resolved {s : Snapshot}
    (hresolved : ∀ entry ∈ s.declarations, ∃ value, entry.2.resolved = some value) (r' : Registry) :
    declarations s = declarations (s.within r') := by
  unfold declarations
  refine congrArg (· >>= _) (Traced.mapM_congr fun entry hentry => ?_)
  obtain ⟨value, hvalue⟩ := hresolved entry hentry
  simp only [Resolution.resolveDeclaration, hvalue]
  rfl

theorem detect_eq_of_agreesBeyond (hresolves : r.ResolvesClasses)
    (ha : r.AgreesBeyond r' (Sheet.names text.toList)) : detect r source text = detect r' source text := by
  have hnames := Sheet.names_declared r source text
  refine detect_congr_of (Sheet.variablesAt_congr fun name _ hown => ?_) fun pass hpass => ?_
  · rw [Registry.valueOf?, Registry.valueOf?, ha.variablesSorted name hown]
  · refine pass_congr_of (fun name wrap => ?_) (classNames_congr_of_resolves ha hresolves)
      (declarations_congr_of_resolved (fun entry hentry => ?_) r') hpass
    · exact colorOf?_congr_byName (hnames.symm ▸ ha) name wrap
    · exact Sheet.exists_resolved (List.mem_map_of_mem hentry)

/-! ### Records of references -/

/-- The record of a reference that stands for a colour. -/
def referenceRecord (text : List Char) (name : String) (start : Nat) (spelling : List Char)
    (color : Color Float) : Record where
  range := (LineIndex.ofChars text).range start (start + spelling.length)
  text := String.ofList spelling
  css := color.css
  color := color
  format := color.written
  mark := { property := name }

theorem mem_references_iff {s : Snapshot} {record : Record} :
    record ∈ (references s).value ↔ ∃ hit ∈ hits Token.reference? s.text, ∃ color,
      (colorOf? s.scope (String.ofList hit.value.1) id).value = some color ∧
        s.record hit.start hit.value.2 color { property := String.ofList hit.value.1 } = record := by
  rw [references, recordsOf, Traced.value_bind, Traced.value_mapM]
  simp [Option.map_eq_some_iff]

/-- The other passes mark a record neither with a class nor with a property alone. -/
theorem mark_of_mem_pass {s : Snapshot} {record : Record} {pass : Snapshot → Traced (List Record)}
    (hpass : pass ∈ passes) (hmem : record ∈ (pass s).value) :
    record ∈ (references s).value ∨ record ∈ (classNames s).value ∨
      record.mark.className = none ∧ ∀ name : String, record.mark ≠ { property := name } := by
  have hliteral (read : Recogniser (List Char)) (hmem : record ∈ literals read s) :
      record.mark = {} := by
    obtain ⟨hit, -, hrecord⟩ := List.mem_filterMap.mp hmem
    obtain ⟨color, -, rfl⟩ := Option.map_eq_some_iff.mp hrecord
    rfl
  simp only [passes, List.mem_cons, List.not_mem_nil, or_false] at hpass
  rcases hpass with rfl | rfl | rfl | rfl | rfl | rfl | rfl | rfl
  · exact .inr (.inr (by simp [hliteral _ hmem]))
  · exact .inr (.inr (by simp [hliteral _ hmem]))
  · exact .inr (.inr (by simp [hliteral _ hmem]))
  · exact .inl hmem
  · obtain ⟨hit, -, hrecord⟩ := mem_recordsOf hmem
    obtain ⟨color, -, rfl⟩ := Option.map_eq_some_iff.mp hrecord
    exact .inr (.inr (by simp [Snapshot.record]))
  · obtain ⟨hit, -, hrecord⟩ := mem_recordsOf hmem
    obtain ⟨color, -, rfl⟩ := Option.map_eq_some_iff.mp hrecord
    exact .inr (.inr (by simp [Snapshot.record]))
  · exact .inr (.inl hmem)
  · obtain ⟨_, -, _, color, -, rfl⟩ := mem_declarations hmem
    exact .inr (.inr (by simp [Snapshot.record]))

/-- Only the pass for references marks a record with a property alone. -/
theorem mem_references_of_mark {s : Snapshot} {record : Record} {name : String}
    {pass : Snapshot → Traced (List Record)} (hpass : pass ∈ passes) (hmem : record ∈ (pass s).value)
    (hmark : record.mark = { property := name }) : record ∈ (references s).value := by
  obtain hreference | hclass | ⟨-, hother⟩ := mark_of_mem_pass hpass hmem
  · exact hreference
  · obtain ⟨_, -, _, -, _, _, color, -, -, rfl⟩ := mem_classNames.mp hclass
    cases hmark
  · exact absurd hmark (hother name)

/-- Tokens of one range start at one place. -/
theorem start_eq_of_range_eq {cs token token' : List Char} {start start' : Nat}
    (htoken : StandsAt cs token start) (htoken' : StandsAt cs token' start')
    (hrange : (LineIndex.ofChars cs).range start (start + token.length) =
      (LineIndex.ofChars cs).range start' (start' + token'.length)) : start = start' := by
  have hle := htoken.le_length
  have hle' := htoken'.le_length
  have hstart := @LineIndex.offsetAt_positionAt cs start (by omega)
  have hstart' := @LineIndex.offsetAt_positionAt cs start' (by omega)
  have hposition := congrArg Range.start hrange
  simp only [LineIndex.range] at hposition
  rw [hposition, hstart'] at hstart
  exact Int.ofNat.inj hstart.symm

section Occurrence

variable {front letters spelling back : List Char} {d : Declaration} {value : String} {record : Record}

theorem colorOf?_of_isForemost
    (hd : Sheet.IsForemost (String.ofList letters) (Sheet.declared r source text) d)
    (hvalue : d.resolved = some value) :
    (colorOf? (Snapshot.take r source text.toList).value.scope (String.ofList letters) id).value =
      Color.ofText? value := by
  simp only [scope_take, colorOf?, hd.preferred?, Resolution.resolveDeclaration, hvalue]
  rfl

theorem standsAt_spelling (hs : Spells letters spelling) (front back : List Char) :
    StandsAt (front ++ (spelling ++ back)) spelling front.length :=
  ⟨hs.ne_nil, by rw [List.drop_left]; exact List.prefix_append spelling back⟩

/-- What the pass for references has for the range of a spelling. -/
theorem mem_references_at_iff (hs : Spells letters spelling)
    (htext : text.toList = front ++ (spelling ++ back))
    (hd : Sheet.IsForemost (String.ofList letters) (Sheet.declared r source text) d)
    (hvalue : d.resolved = some value) :
    (record ∈ (references (Snapshot.take r source text.toList).value).value ∧
        record.range =
          (LineIndex.ofChars text.toList).range front.length (front.length + spelling.length)) ↔
      ∃ color, Color.ofText? value = some color ∧
        record = referenceRecord text.toList (String.ofList letters) front.length spelling color := by
  have hcolor := colorOf?_of_isForemost hd hvalue
  have hsnapshot : (Snapshot.take r source text.toList).value.text = text.toList := rfl
  rw [mem_references_iff]
  constructor
  · rintro ⟨⟨hit, hhit, color, hfound, rfl⟩, hrange⟩
    rw [hsnapshot] at hhit
    have hstands := standsAt_of_mem_hits Token.begins_of_reference? hhit
    rw [htext] at hstands hhit
    have hstart : hit.start = front.length := by
      refine start_eq_of_range_eq hstands (standsAt_spelling hs front back) ?_
      rw [← htext]
      exact hrange
    have hread : hit.value = (letters, spelling) := Token.value_of_mem_hits_reference hs hhit hstart
    rw [hread, hcolor] at hfound
    refine ⟨color, hfound, ?_⟩
    rw [hread, hstart]
    rfl
  · rintro ⟨color, hfound, rfl⟩
    refine ⟨⟨⟨front.length, front.length + spelling.length, (letters, spelling)⟩, ?_, color,
      hcolor.trans hfound, rfl⟩, rfl⟩
    rw [hsnapshot, htext]
    exact Token.mem_hits_reference hs front back

/-- No literal has the range of a spelling. -/
theorem range_ne_of_mem_literals (hs : Spells letters spelling)
    (htext : text.toList = front ++ (spelling ++ back)) {read : Recogniser (List Char)}
    (hread : read ∈ [Token.hex?, Token.function?, Token.compact?])
    (hbegins : ∀ {before cs value after}, read before cs = some (value, after) → Begins value cs)
    (hmem : record ∈ literals read (Snapshot.take r source text.toList).value) :
    record.range ≠
      (LineIndex.ofChars text.toList).range front.length (front.length + spelling.length) := by
  intro hrange
  obtain ⟨hit, hhit, hrecord⟩ := List.mem_filterMap.mp hmem
  obtain ⟨color, -, rfl⟩ := Option.map_eq_some_iff.mp hrecord
  have hhit' : hit ∈ hits read (front ++ (spelling ++ back)) := htext ▸ hhit
  have hstands : StandsAt (front ++ (spelling ++ back)) hit.value hit.start :=
    standsAt_of_mem_hits hbegins hhit'
  have hstart : hit.start = front.length := by
    refine start_eq_of_range_eq hstands (standsAt_spelling hs front back) ?_
    rw [← htext]
    exact hrange
  obtain ⟨before, after, hhit⟩ := exists_of_mem_hits hhit'
  obtain ⟨tail, rfl⟩ := hs.exists_eq_cons
  rw [hstart, List.drop_left, List.cons_append, Token.read_eq_none_of_literal hread] at hhit
  cases hhit

theorem mem_detect_of_mem_references (hs : Spells letters spelling)
    (htext : text.toList = front ++ (spelling ++ back))
    (hd : Sheet.IsForemost (String.ofList letters) (Sheet.declared r source text) d)
    (hvalue : d.resolved = some value)
    (hmem : record ∈ (references (Snapshot.take r source text.toList).value).value)
    (hrange : record.range =
      (LineIndex.ofChars text.toList).range front.length (front.length + spelling.length)) :
    record ∈ (detect r source text).value := by
  have hkept : (record.range, record) ∈
      Record.merge (candidates (Snapshot.take r source text.toList).value) := by
    rw [Record.merge, ← List.take_append_drop 4 (candidates _), List.flatten_append]
    refine Record.mem_firstOfEach ?_ (fun e he heq => ?_) List.not_mem_nil
    · simp [candidates, passes, hmem]
    · -- Of the passes up to the one for references, the literals have other ranges.
      have hfirst : ∃ found, e = (found.range, found) ∧
          (found ∈ literals Token.hex? (Snapshot.take r source text.toList).value ∨
            found ∈ literals Token.function? (Snapshot.take r source text.toList).value ∨
            found ∈ literals Token.compact? (Snapshot.take r source text.toList).value ∨
            found ∈ (references (Snapshot.take r source text.toList).value).value) := by
        simp only [candidates, passes, List.map_cons, List.map_nil, List.take_succ_cons, List.take_zero,
          Traced.value_pure, List.flatten_cons, List.flatten_nil, List.append_nil, List.mem_append,
          List.mem_map] at he
        rcases he with ⟨found, hfound, rfl⟩ | ⟨found, hfound, rfl⟩ | ⟨found, hfound, rfl⟩ |
          ⟨found, hfound, rfl⟩ <;> exact ⟨found, rfl, by simp [hfound]⟩
      obtain ⟨found, rfl, hfound⟩ := hfirst
      have heq' : found.range =
          (LineIndex.ofChars text.toList).range front.length (front.length + spelling.length) :=
        Eq.trans heq hrange
      rcases hfound with hfound | hfound | hfound | hfound
      · exact absurd heq' (range_ne_of_mem_literals hs htext (by simp) Token.begins_of_hex? hfound)
      · exact absurd heq' (range_ne_of_mem_literals hs htext (by simp) Token.begins_of_function? hfound)
      · exact absurd heq' (range_ne_of_mem_literals hs htext (by simp) Token.begins_of_compact? hfound)
      · obtain ⟨color, hcolor, rfl⟩ := (mem_references_at_iff hs htext hd hvalue).mp ⟨hfound, heq'⟩
        obtain ⟨color', hcolor', rfl⟩ := (mem_references_at_iff hs htext hd hvalue).mp ⟨hmem, hrange⟩
        rw [Option.some.inj (hcolor.symm.trans hcolor')]
  rw [value_detect]
  exact List.mem_map_of_mem hkept

/-- A reference to a name that the text declares is found exactly when the foremost declaration of the
name resolves to a colour, and then with that colour. -/
theorem mem_detect_at_iff (hs : Spells letters spelling)
    (htext : text.toList = front ++ (spelling ++ back))
    (hd : Sheet.IsForemost (String.ofList letters) (Sheet.declared r source text) d)
    (hvalue : d.resolved = some value) :
    (record ∈ (detect r source text).value ∧
        record.range =
          (LineIndex.ofChars text.toList).range front.length (front.length + spelling.length) ∧
        record.mark = { property := String.ofList letters }) ↔
      ∃ color, Color.ofText? value = some color ∧
        record = referenceRecord text.toList (String.ofList letters) front.length spelling color := by
  rw [← mem_references_at_iff hs htext hd hvalue]
  constructor
  · rintro ⟨hmem, hrange, hmark⟩
    refine ⟨?_, hrange⟩
    rw [value_detect] at hmem
    obtain ⟨entry, hentry, rfl⟩ := List.mem_map.mp hmem
    obtain ⟨found, hfound, hentry⟩ := List.mem_flatten.mp ((Record.firstOfEach_sublist _ _).subset hentry)
    obtain ⟨pass, hpass, rfl⟩ := List.mem_map.mp hfound
    obtain ⟨record, hrecord, rfl⟩ := List.mem_map.mp hentry
    exact mem_references_of_mark hpass hrecord hmark
  · rintro ⟨hmem, hrange⟩
    refine ⟨mem_detect_of_mem_references hs htext hd hvalue hmem hrange, hrange, ?_⟩
    obtain ⟨color, -, rfl⟩ := (mem_references_at_iff hs htext hd hvalue).mp ⟨hmem, hrange⟩
    rfl

end Occurrence

/-- What a text declares itself it does not look up: registries that agree on all classes, each with a
resolved colour, and on all names that the text does not declare give the same records. And a reference
to a name that the text declares has a record exactly when the text's foremost declaration of the name
resolves to a colour. -/
theorem detect_shadows :
    (∀ (r r' : Registry) (source text : String), r.ResolvesClasses →
        r.AgreesBeyond r' (Sheet.names text.toList) → detect r source text = detect r' source text) ∧
      ∀ (r : Registry) (source text : String) (front letters spelling back : List Char),
        text.toList = front ++ (spelling ++ back) → Spells letters spelling →
        String.ofList letters ∈ Sheet.names text.toList →
        ∃ d value, d.resolved = some value ∧
          (∀ d', Sheet.IsForemost (String.ofList letters) (Sheet.declared r source text) d' ↔ d' = d) ∧
          ∀ record, (record ∈ (detect r source text).value ∧
              record.range =
                (LineIndex.ofChars text.toList).range front.length (front.length + spelling.length) ∧
              record.mark = { property := String.ofList letters }) ↔
            ∃ color, Color.ofText? value = some color ∧
              record = referenceRecord text.toList (String.ofList letters) front.length spelling color := by
  refine ⟨fun r r' source text => detect_eq_of_agreesBeyond, ?_⟩
  intro r source text front letters spelling back htext hs hname
  rw [← Sheet.names_declared r source text] at hname
  obtain ⟨d, hd⟩ := Sheet.exists_isForemost hname
  obtain ⟨value, hvalue⟩ := Sheet.exists_resolved hd.mem
  refine ⟨d, value, hvalue, fun d' => ⟨fun hd' => hd'.unique hd, fun heq => heq ▸ hd⟩, ?_⟩
  intro record
  exact mem_detect_at_iff hs htext hd hvalue

/-- A stylesheet with a class, and with a name that `brandAndCard` declares as well. -/
def brandElsewhere : Stylesheet :=
  ⟨"theme.css", ":root\x7b--brand:#000\x7d .title\x7bcolor:var(--brand)\x7d"⟩

def redBrand : Declaration where
  name := "--brand"
  value := "#f00"
  source := "red.css"
  line := 0
  selector := ":root"
  context := Selector.context ":root"
  resolved := some "#f00"

theorem detect_shadows_brandAndCard :
    (((∅ : Registry).indexAll [brandElsewhere]).ResolvesClasses ∧
        ((∅ : Registry).indexAll [brandElsewhere]).AgreesBeyond
          (((∅ : Registry).indexAll [brandElsewhere]).addVariable "--brand" redBrand)
          (Sheet.names brandAndCard.toList) ∧
        (detect ((∅ : Registry).indexAll [brandElsewhere]) "page.css" brandAndCard =
          detect (((∅ : Registry).indexAll [brandElsewhere]).addVariable "--brand" redBrand) "page.css"
            brandAndCard)) ∧
      brandAndCard.toList =
          ":root\x7b--brand:#1e90ff\x7d\n.card\x7bcolor:".toList ++ ("var(--brand)".toList ++ ['\x7d']) ∧
        Spells "--brand".toList "var(--brand)".toList ∧ "--brand" ∈ Sheet.names brandAndCard.toList ∧
        ∃ color, Color.ofText? "#1e90ff" = some color ∧ color.css = "rgb(30, 144, 255)" ∧
          referenceRecord brandAndCard.toList "--brand" 35 "var(--brand)".toList color ∈
            (detect ((∅ : Registry).indexAll [brandElsewhere]) "page.css" brandAndCard).value := by
  have hresolves := Registry.resolvesClasses_empty.indexAll [brandElsewhere]
  have hname : "--brand" ∈ Sheet.names brandAndCard.toList := by decide +kernel
  have ha := Registry.agreesBeyond_addVariable hname ((∅ : Registry).indexAll [brandElsewhere]) redBrand
  have htext : brandAndCard.toList = ":root\x7b--brand:#1e90ff\x7d\n.card\x7bcolor:".toList ++
      ("var(--brand)".toList ++ ['\x7d']) := by decide +kernel
  have hs : Spells "--brand".toList "var(--brand)".toList :=
    @Spells.intro [] ['b', 'r', 'a', 'n', 'd'] [] (by simp) (by simp) (by simp; decide) (by simp)
  refine ⟨⟨hresolves, ha, detect_shadows.1 _ _ _ _ hresolves ha⟩, htext, hs, hname, ?_⟩
  obtain ⟨d, value, hvalue, hforemost, hrecord⟩ :=
    detect_shadows.2 ((∅ : Registry).indexAll [brandElsewhere]) "page.css" brandAndCard _ _ _ _ htext hs
      hname
  have hdeclared : (Sheet.declared ((∅ : Registry).indexAll [brandElsewhere]) "page.css" brandAndCard).map
      (·.resolved) = [some "#1e90ff"] := by decide +kernel
  have hmem : d.resolved ∈ (Sheet.declared ((∅ : Registry).indexAll [brandElsewhere]) "page.css"
      brandAndCard).map (·.resolved) := List.mem_map_of_mem ((hforemost d).mpr rfl).mem
  obtain rfl : value = "#1e90ff" := by simpa [hdeclared, hvalue] using hmem
  have hcss : (Color.ofText? "#1e90ff" : Option (Color Float)).map (·.css) = some "rgb(30, 144, 255)" := by
    decide +kernel
  obtain ⟨color, hcolor, hcss⟩ := Option.map_eq_some_iff.mp hcss
  exact ⟨color, hcolor, hcss, ((hrecord _).mpr ⟨color, hcolor, rfl⟩).1⟩

end Detection

end Swatch
