import Swatch.Proofs.Service.Session
import Swatch.Proofs.Workspace.Isolation

/-!
Rebuilds of one registry that go on beside each other. Each of them wipes out what the others have
indexed so far, but after the last of them has begun, a stylesheet is either indexed or still to be
indexed by one that goes on. Main statement: once all of them are over, the registry has what the
stylesheets declare, and nothing else.
-/

namespace Swatch

open Workspace
open Registry (Reflects entriesOf inOrder specificity)

/-! ### What the log has of a stylesheet -/

namespace Registry.Log

variable {l : Log} {source source' : String} {text : List Char} {sheet : Sheet}

/-- Of a source, a log has exactly the declarations that a text has, as they are written. -/
def IsExact (l : Log) (source : String) (text : List Char) : Prop :=
  (l.declarations.filter (·.2.source = source)).map (fun e => (e.1, e.2.unresolved)) =
    (Sheet.written source text).map fun d => (d.name, d)

/-- The log when a stylesheet takes the place of what its source had. -/
def enterSheet (l : Log) (source : String) (sheet : Sheet) : Log :=
  (l.replaceDeclarations source sheet.declarations).replaceClasses source sheet.classes

theorem declarations_enterSheet (l : Log) (source : String) (sheet : Sheet) :
    (l.enterSheet source sheet).declarations =
      l.declarations.filter (·.2.source ≠ source) ++ sheet.declarations.map fun d => (d.name, d) :=
  rfl

theorem isExact_enterSheet (hsource : ∀ d ∈ sheet.declarations, d.source = source)
    (hwritten : sheet.declarations.map (·.unresolved) = Sheet.written source text) (l : Log) :
    (l.enterSheet source sheet).IsExact source text := by
  rw [IsExact, declarations_enterSheet, List.filter_append]
  have hothers : (l.declarations.filter (·.2.source ≠ source)).filter (·.2.source = source) = [] := by
    simp [List.filter_filter]
  have hown : (sheet.declarations.map fun d => (d.name, d)).filter (·.2.source = source) =
      sheet.declarations.map fun d => (d.name, d) :=
    List.filter_eq_self.mpr (by simpa using hsource)
  rw [hothers, hown, List.nil_append, ← hwritten, List.map_map, List.map_map]
  rfl

theorem IsExact.enterSheet (h : l.IsExact source text) (hne : source' ≠ source)
    (hsource : ∀ d ∈ sheet.declarations, d.source = source') :
    (l.enterSheet source' sheet).IsExact source text := by
  rw [IsExact, declarations_enterSheet, List.filter_append]
  have hothers : (l.declarations.filter (·.2.source ≠ source')).filter (·.2.source = source) =
      l.declarations.filter (·.2.source = source) := by
    rw [List.filter_filter]
    refine List.filter_congr fun e _ => ?_
    grind
  have hown : (sheet.declarations.map fun d => (d.name, d)).filter (·.2.source = source) = [] := by
    refine List.filter_eq_nil_iff.mpr fun e he => ?_
    obtain ⟨d, hd, rfl⟩ := List.mem_map.mp he
    simp [hsource d hd, hne]
  rw [hothers, hown, List.append_nil]
  exact h

/-- What a registry answers for a name, of a source of which its log has all. -/
theorem IsExact.variablesSorted {r : Registry} (h : l.IsExact source text) (hr : r.Reflects l)
    (name : String) :
    ((r.variablesSorted name).filter (·.source = source)).map (·.unresolved) =
      inOrder specificity ((Sheet.written source text).filter (·.name = name)) := by
  have hkey : ∀ e : Declaration, specificity e.unresolved = specificity e := fun _ => rfl
  have hentries : (entriesOf name (l.declarations.filter (·.2.source = source))).map (·.unresolved) =
      (Sheet.written source text).filter (·.name = name) := by
    rw [← Registry.entriesOf_map name Declaration.name, ← h, entriesOf, entriesOf, List.filter_map,
      List.map_map, List.map_map]
    rfl
  rw [hr.answers.variablesSorted, Registry.filter_inOrder, ← Registry.entriesOf_filter,
    Registry.map_inOrder hkey, hentries]

end Registry.Log

/-! ### What is indexed and what is still to be -/

namespace Service.Rebuilds

variable {w : Workspace} {d : Disk} {root path : Path} {r : Registry} {pending pending' : List Path}

/-- That on a disk a stylesheet is found that can be read. -/
def IsLegible (w : Workspace) (d : Disk) (path : Path) (text : List Char) : Prop :=
  path ∈ (w.find d).1 ∧ d.read path = .ok text

/-- All that a registry has comes from stylesheets that can be read, and of each of them it has
either all or it is among those that are still to be indexed. -/
def Covers (w : Workspace) (d : Disk) (r : Registry) (pending : List Path) : Prop :=
  ∃ l, r.Reflects l ∧
    (∀ e ∈ l.declarations, ∃ path text, IsLegible w d path text ∧ e.2.source = path.address) ∧
    ∀ path text, IsLegible w d path text → l.IsExact path.address text ∨ path ∈ pending

theorem covers_clear (w : Workspace) (d : Disk) (r : Registry) : Covers w d r.clear (w.find d).1 :=
  ⟨∅, Registry.reflects_empty, fun _ he => absurd he List.not_mem_nil, fun _ _ h => .inr h.1⟩

theorem Covers.mono (h : Covers w d r pending) (hsub : pending ⊆ pending') :
    Covers w d r pending' := by
  obtain ⟨l, hr, hsources, hall⟩ := h
  exact ⟨l, hr, hsources, fun path text hlegible => (hall path text hlegible).imp_right (hsub ·)⟩

theorem Covers.index (hroot : IsRoot w.root) (htree : w.HasTree d) {text : List Char}
    (h : Covers w d r (path :: pending)) (hlegible : IsLegible w d path text) :
    Covers w d (r.index path.address (String.ofList text)).value.2 pending := by
  obtain ⟨l, hr, hsources, hall⟩ := h
  let sheet := (Sheet.read r path.address (String.ofList text)).value
  have hsource : ∀ e ∈ sheet.declarations, e.source = path.address := fun e he =>
    Registry.eq_of_mem_sources (List.mem_append_left _ (List.mem_map_of_mem he))
  have hwritten : sheet.declarations.map (·.unresolved) = Sheet.written path.address text :=
    (Sheet.written_declared r path.address (String.ofList text)).trans (by rw [String.toList_ofList])
  refine ⟨l.enterSheet path.address sheet,
    (hr.replaceVariables _ sheet.declarations).replaceClasses _ sheet.classes, fun e he => ?_,
    fun path' text' hlegible' => ?_⟩
  · rw [Registry.Log.declarations_enterSheet] at he
    rcases List.mem_append.mp he with he | he
    · exact hsources e (List.mem_of_mem_filter he)
    · obtain ⟨declared, hdeclared, rfl⟩ := List.mem_map.mp he
      exact ⟨path, text, hlegible, hsource declared hdeclared⟩
  · by_cases hpath : path' = path
    · subst hpath
      obtain rfl : text = text' := Except.ok.inj (hlegible.2.symm.trans hlegible'.2)
      exact .inl (Registry.Log.isExact_enterSheet hsource hwritten l)
    · have hne : path.address ≠ path'.address := fun heq =>
        hpath (address_injOn_find hroot htree hlegible.1 hlegible'.1 heq).symm
      rcases hall path' text' hlegible' with hexact | hmem
      · exact .inl (hexact.enterSheet hne hsource)
      · exact .inr ((List.mem_cons.mp hmem).resolve_left hpath)

theorem Covers.skip {e : Disk.ReadError} (h : Covers w d r (path :: pending))
    (hread : d.read path = .error e) : Covers w d r pending := by
  obtain ⟨l, hr, hsources, hall⟩ := h
  refine ⟨l, hr, hsources, fun path' text' hlegible' => (hall path' text' hlegible').imp_right ?_⟩
  intro hmem
  refine (List.mem_cons.mp hmem).resolve_left ?_
  rintro rfl
  exact absurd (hread.symm.trans hlegible'.2) (by simp)

theorem Covers.next (hroot : IsRoot w.root) (htree : w.HasTree d) {b : Workspace.Rebuild}
    {rest : List Path} (hpending : b.pending = path :: rest) (hpath : path ∈ (w.find d).1)
    (h : Covers w d r (path :: pending)) : Covers w d (b.next d r).value.2 pending := by
  rw [value_next hpending (isAbsolute_of_mem_find hroot hpath)]
  cases hread : d.read path with
  | ok text => exact h.index hroot htree ⟨hpath, hread⟩
  | error e => exact h.skip hread

end Service.Rebuilds

/-! ### Turns -/

namespace Service

def Rebuilding.pending : Rebuilding → List Path
  | .going b => b.pending
  | .finished _ => []

/-- A turn that works on a disk as it is, and does not detect in a stylesheet. -/
def Turn.IsOn (d : Disk) : Turn → Prop
  | .begin d' first => d' = d ∧ first = d
  | .goOn _ d' => d' = d
  | .detect document => document.isStylesheet = false

namespace Rebuilds

variable {w : Workspace} {d : Disk} {root path : Path} {s : Service} {x : Rebuilds}
  {pending others : List Path}

theorem pending_goOn_sublist (s : Service) (d : Disk) (b : Rebuilding) :
    ((s.goOn d b).value.1.pending).Sublist b.pending := by
  cases b with
  | finished report => exact .slnil
  | going b =>
      rw [goOn]
      cases hpending : b.pending with
      | nil => exact List.nil_sublist _
      | cons path rest =>
          have hnext := pending_next hpending d s.library.registry
          simp [Rebuilding.pending, hpending, hnext]

/-- What a rebuild takes from what is still to be indexed is indexed, if it can be read. -/
theorem Covers.goOn (hroot : IsRoot w.root) (htree : w.HasTree d) {b : Rebuilding}
    (hb : b.pending ⊆ (w.find d).1) (h : Covers w d s.library.registry (b.pending ++ others)) :
    Covers w d (s.goOn d b).value.2.library.registry ((s.goOn d b).value.1.pending ++ others) := by
  cases b with
  | finished report => exact h
  | going b =>
      rw [Service.goOn]
      cases hpending : b.pending with
      | nil =>
          have hnil : (Rebuilding.going b).pending = [] := hpending
          rw [hnil] at h
          exact h
      | cons path rest =>
          have hcons : (Rebuilding.going b).pending = path :: rest := hpending
          rw [hcons] at h hb
          have hnext := h.next hroot htree hpending (hb (List.mem_cons_self ..))
          have hrest : (b.next d s.library.registry).value.1.pending = rest :=
            pending_next hpending d s.library.registry
          rw [← hrest] at hnext
          exact hnext

/-- What stands between the turns, from when the first rebuild has begun: every stylesheet that can
be read is indexed, or a rebuild is still to index it. -/
structure Stands (w : Workspace) (d : Disk) (x : Rebuilds) : Prop where
  pending : ∀ b ∈ x.rebuilds, b.pending ⊆ (w.find d).1
  covers : x.rebuilds ≠ [] →
    Covers w d x.service.library.registry (x.rebuilds.flatMap Rebuilding.pending)

theorem stands_nil (w : Workspace) (d : Disk) (s : Service) : Stands w d ⟨s, []⟩ :=
  ⟨fun _ hb => absurd hb List.not_mem_nil, fun hne => absurd rfl hne⟩

theorem library_detect_of_not_isStylesheet {document : Document}
    (hdocument : document.isStylesheet = false) (s : Service) :
    (s.detect document).value.2.library = s.library := by
  by_cases hcovers : s.settings.covers document.language = true
  · have hsame : (s.ensureIndexed document).value.2 = s := by
      have hlacks : s.library.lacks document = false := by simp [Library.lacks, hdocument]
      rw [ensureIndexed, if_neg (by simp [hlacks])]
      rfl
    exact (detect_cases s document hcovers).1.trans (congrArg Service.library hsame)
  · rw [detect_of_not_covers hcovers]

theorem eq_or_mem_set {α : Type} {xs : List α} {place : Nat} {a b c : α}
    (hplace : xs[place]? = some b) (hc : c ∈ xs) : c = b ∨ c ∈ xs.set place a := by
  obtain ⟨i, hi⟩ := List.mem_iff_getElem?.mp hc
  by_cases heq : place = i
  · subst heq
    exact .inl (Option.some.inj (hi.symm.trans hplace))
  · exact .inr (List.mem_iff_getElem?.mpr ⟨i, by rw [List.getElem?_set_ne heq, hi]⟩)

theorem Stands.begin (hroot : IsRoot w.root) (htree : w.HasTree d) (h : Stands w d x) :
    Stands w d (x.turn w (.begin d d)).value := by
  have hbegun := value_begin w d x.service.library.registry
  let b := Rebuilding.going (w.begin d x.service.library.registry).value.1
  let s := { x.service with
    library := ⟨(w.begin d x.service.library.registry).value.2, x.service.library.indexed⟩ }
  have hpending : b.pending = (w.find d).1 := congrArg (fun begun => begun.1.pending) hbegun
  have hcleared : Covers w d s.library.registry (b.pending ++ []) := by
    have hregistry : s.library.registry = x.service.library.registry.clear :=
      congrArg Prod.snd hbegun
    rw [hpending, List.append_nil, hregistry]
    exact covers_clear w d x.service.library.registry
  have hfound : b.pending ⊆ (w.find d).1 := hpending ▸ List.Subset.refl _
  have hcovers := hcleared.goOn hroot htree hfound
  refine ⟨fun c hc => ?_, fun _ => hcovers.mono fun path hpath => ?_⟩
  · rcases List.mem_append.mp hc with hc | hc
    · exact h.pending c hc
    · rw [List.mem_singleton.mp hc]
      exact List.Subset.trans (pending_goOn_sublist s d b).subset hfound
  · rw [List.append_nil] at hpath
    exact List.mem_flatMap.mpr ⟨_, List.mem_append_right _ (List.mem_singleton_self _), hpath⟩

theorem Stands.goOn (hroot : IsRoot w.root) (htree : w.HasTree d) (h : Stands w d x)
    (place : Nat) : Stands w d (x.turn w (.goOn place d)).value := by
  rw [turn]
  cases hplace : x.rebuilds[place]? with
  | none => exact h
  | some b =>
      have hmem : b ∈ x.rebuilds := List.mem_of_getElem? hplace
      have hne : x.rebuilds ≠ [] := List.ne_nil_of_mem hmem
      let b' := (x.service.goOn d b).value.1
      have hset : b' ∈ x.rebuilds.set place b' :=
        List.mem_set (List.getElem?_eq_some_iff.mp hplace).1 b'
      have hothers : x.rebuilds.flatMap Rebuilding.pending ⊆
          b.pending ++ (x.rebuilds.set place b').flatMap Rebuilding.pending := by
        intro path hpath
        obtain ⟨c, hc, hpath⟩ := List.mem_flatMap.mp hpath
        rcases eq_or_mem_set hplace hc with rfl | hc
        · exact List.mem_append_left _ hpath
        · exact List.mem_append_right _ (List.mem_flatMap.mpr ⟨c, hc, hpath⟩)
      have hcovers := ((h.covers hne).mono hothers).goOn hroot htree (h.pending b hmem)
      refine ⟨fun c hc => ?_, fun _ => hcovers.mono fun path hpath => ?_⟩
      · rcases List.mem_or_eq_of_mem_set hc with hc | rfl
        · exact h.pending c hc
        · exact List.Subset.trans (pending_goOn_sublist _ d b).subset (h.pending b hmem)
      · rcases List.mem_append.mp hpath with hpath | hpath
        · exact List.mem_flatMap.mpr ⟨b', hset, hpath⟩
        · exact hpath

theorem Stands.turn (hroot : IsRoot w.root) (htree : w.HasTree d) (h : Stands w d x) {t : Turn}
    (ht : t.IsOn d) : Stands w d (x.turn w t).value := by
  cases t with
  | begin d' first =>
      obtain ⟨rfl, rfl⟩ := ht
      exact h.begin hroot htree
  | goOn place d' =>
      obtain rfl := ht
      exact h.goOn hroot htree place
  | detect document =>
      have hlibrary := library_detect_of_not_isStylesheet ht x.service
      refine ⟨h.pending, fun hne => ?_⟩
      exact (congrArg Library.registry hlibrary).symm ▸ h.covers hne

theorem Stands.turns (hroot : IsRoot w.root) (htree : w.HasTree d) {ts : List Turn}
    (h : Stands w d x) (hts : ∀ t ∈ ts, t.IsOn d) : Stands w d (x.turns w ts).value := by
  induction ts generalizing x with
  | nil => exact h
  | cons t ts ih =>
      rw [value_turns_cons]
      exact ih (h.turn hroot htree (hts t (List.mem_cons_self ..)))
        fun t' ht' => hts t' (List.mem_cons_of_mem _ ht')

/-- Once all rebuilds are over, however they went on beside each other and beside detections, the
registry has of each stylesheet that can be read what its text declares, each declaration once, and
nothing else. -/
theorem declares_of_turns {s : Service} (hw : Workspace.ofSettings d root s.settings = .ok w)
    (htree : w.HasTree d) {ts : List Turn} (hts : ∀ t ∈ ts, t.IsOn d)
    (hbegun : (turns w ⟨s, []⟩ ts).value.rebuilds ≠ [])
    (hover : ∀ b ∈ (turns w ⟨s, []⟩ ts).value.rebuilds, b.isOver = true) :
    let r := (turns w ⟨s, []⟩ ts).value.service.library.registry
    (∀ path ∈ (w.find d).1, ∀ text, d.read path = .ok text → ∀ name,
      ((r.variablesSorted name).filter (·.source = path.address)).map (·.unresolved) =
        inOrder specificity ((Sheet.written path.address text).filter (·.name = name))) ∧
      ∀ name, ∀ declaration ∈ r.variablesSorted name, ∃ path ∈ (w.find d).1,
        (∃ text, d.read path = .ok text) ∧ declaration.source = path.address := by
  intro r
  have hstands := (stands_nil w d s).turns (isRoot_of_ofSettings hw) htree hts
  have hpending : (turns w ⟨s, []⟩ ts).value.rebuilds.flatMap Rebuilding.pending = [] := by
    refine List.flatMap_eq_nil_iff.mpr fun b hb => ?_
    cases b with
    | going b => exact absurd (hover _ hb) (by simp [Rebuilding.isOver])
    | finished report => rfl
  obtain ⟨l, hr, hsources, hall⟩ := hstands.covers hbegun
  rw [hpending] at hall
  refine ⟨fun path hpath text hread name => ?_, fun name declaration hdeclaration => ?_⟩
  · have hexact := (hall path text ⟨hpath, hread⟩).resolve_right List.not_mem_nil
    exact hexact.variablesSorted hr name
  · rw [hr.answers.variablesSorted] at hdeclaration
    have hmem : declaration ∈ entriesOf name l.declarations :=
      (List.mergeSort_perm _ _).mem_iff.mp hdeclaration
    obtain ⟨path, text, ⟨hpath, hread⟩, hsource⟩ := hsources _ (Registry.mem_entriesOf.mp hmem)
    exact ⟨path, hpath, ⟨text, hread⟩, hsource⟩

/-- Two rebuilds, of which the second begins when the first has indexed all there is. -/
def overlapping (d : Disk) : List Turn :=
  .begin d d :: List.replicate 3 (.goOn 0 d) ++
    [.begin d d, .detect ⟨"file:///page.html", 1, "html", "#fff"⟩, .goOn 0 d] ++
      List.replicate 4 (.goOn 1 d)

/-- What comes of them. -/
def overlapped : Rebuilds :=
  (turns unbuiltSite ⟨.ofSettings (excluding "build"), []⟩ (overlapping draftedDisk)).value

theorem rebuilds_overlapped : overlapped.rebuilds.map Rebuilding.isOver = [true, true] := by
  have hbegin : ∀ r, unbuiltSite.begin draftedDisk r =
      ⟨(⟨["base.css", "draft.css", "photo.css", "theme.css"].map fun name => ⟨"/", ["site", name]⟩,
        ⟨4, 0, 0, 0, [], false⟩⟩, ∅), []⟩ := by
    intro r
    rw [Workspace.begin, find_draftedDisk]
    rfl
  simp only [overlapped, overlapping, List.replicate, List.cons_append, List.nil_append, turns,
    List.foldlM_cons, List.foldlM_nil, turn, beginRebuild, hbegin]
  decide +kernel

theorem declares_of_turns_overlapping :
    Workspace.ofSettings draftedDisk ⟨"/", ["site"]⟩ (excluding "build") = .ok unbuiltSite ∧
      overlapped.rebuilds.map Rebuilding.isOver = [true, true] ∧
      ((overlapped.service.library.registry.variablesSorted "--a").filter
        (·.source = "file:///site/theme.css")).map (fun e => (e.value, e.line, e.selector)) =
          [("#fff", 0, ":root")] := by
  have hw : Workspace.ofSettings draftedDisk ⟨"/", ["site"]⟩ (excluding "build") =
      .ok unbuiltSite := rfl
  have hover : ∀ b ∈ overlapped.rebuilds, b.isOver = true := by
    intro b hb
    have hmem : b.isOver ∈ overlapped.rebuilds.map Rebuilding.isOver := List.mem_map_of_mem hb
    rw [rebuilds_overlapped] at hmem
    simpa using hmem
  have hbegun : overlapped.rebuilds ≠ [] := fun hnil => by
    simpa [hnil] using rebuilds_overlapped
  have hts : ∀ t ∈ overlapping draftedDisk, t.IsOn draftedDisk := by
    have hpage : Document.isStylesheet ⟨"file:///page.html", 1, "html", "#fff"⟩ = false := by decide
    simp [overlapping, Turn.IsOn, hpage]
  have htheme : ⟨"/", ["site", "theme.css"]⟩ ∈ (unbuiltSite.find draftedDisk).1 := by
    simp [find_draftedDisk]
  have hread : draftedDisk.read ⟨"/", ["site", "theme.css"]⟩ = .ok whiteTheme.toList := by
    decide +kernel
  have hdeclared := (@declares_of_turns _ _ _ (.ofSettings (excluding "build")) hw
    hasTree_draftedDisk _ hts hbegun hover).1 _ htheme _ hread "--a"
  have hwritten : (Sheet.written (Path.address ⟨"/", ["site", "theme.css"]⟩)
      whiteTheme.toList).filter (·.name = "--a") =
        [⟨"--a", "#fff", "file:///site/theme.css", 0, ":root", ⟨.root, 1, none, none⟩, none⟩] := by
    decide +kernel
  rw [hwritten, inOrder, List.mergeSort_singleton] at hdeclared
  have hvalues := congrArg (List.map fun e : Declaration => (e.value, e.line, e.selector)) hdeclared
  rw [List.map_map] at hvalues
  exact ⟨hw, rebuilds_overlapped, hvalues⟩

end Rebuilds

end Service

end Swatch
