import Swatch.Proofs.Registry.Indexing
import Swatch.Proofs.Workspace.Address
import Swatch.Proofs.Workspace.Finding
import Swatch.Service.Rebuilding

/-!
Indexing a workspace of which some stylesheets cannot be read. Main statement: the registry has what
the others declare, as if there were only these, and the report has the ones that could not be read.
-/

namespace Swatch

theorem Disk.isAbsolute_absolute (d : Disk) (p : Path) : (d.absolute p).isAbsolute = true := by
  rw [absolute]
  split
  · assumption
  · rfl

theorem Disk.absolute_of_isAbsolute {p : Path} (hp : p.isAbsolute = true) (d : Disk) :
    d.absolute p = p :=
  if_pos hp

namespace Workspace

open Node

variable {w : Workspace} {d : Disk} {root path : Path} {s : Settings}

/-! ### The paths that are found -/

/-- A folder that begins at the top and has no way back in it, as the folder of a workspace. -/
structure IsRoot (p : Path) : Prop where
  absolute : p.isAbsolute = true
  points : ".." ∉ p.names

theorem isRoot_of_ofSettings (hw : ofSettings d root s = .ok w) : IsRoot w.root := by
  obtain ⟨-, -, hroot, -⟩ := ofSettings_eq_ok hw
  rw [hroot]
  exact ⟨d.isAbsolute_absolute root, Path.not_mem_names_normal _⟩

/-- That the folder of a workspace is one, if it is anything. -/
def HasTree (w : Workspace) (d : Disk) : Prop :=
  ∀ entries, d.find w.root = .ok (.folder entries) → IsTree entries

theorem exists_of_mem_all {names : List String} (hnames : names ∈ w.all d) :
    ∃ entries, d.find w.root = .ok (.folder entries) ∧ HasFile entries names := by
  have h := hnames
  rw [all] at h
  split at h
  · rename_i entries hfolder
    exact ⟨entries, hfolder, ((mem_all hfolder).mp hnames).1⟩
  · cases h

theorem isName_of_mem_all (htree : w.HasTree d) {names : List String} (hnames : names ∈ w.all d) :
    names ≠ [] ∧ ∀ name ∈ names, IsName name := by
  obtain ⟨entries, hfolder, hfile⟩ := exists_of_mem_all hnames
  exact ⟨hfile.ne_nil, hfile.isName (htree entries hfolder)⟩

theorem find_fst : (w.find d).1 = ((w.all d).take w.limit).map w.root.below :=
  rfl

theorem exists_of_mem_find (hpath : path ∈ (w.find d).1) :
    ∃ names ∈ w.all d, path = w.root.below names := by
  rw [find_fst] at hpath
  obtain ⟨names, hnames, rfl⟩ := List.mem_map.mp hpath
  exact ⟨names, List.mem_of_mem_take hnames, rfl⟩

theorem exists_names_of_mem_find (htree : w.HasTree d) (hpath : path ∈ (w.find d).1) :
    ∃ names, path = w.root.below names ∧ names ≠ [] ∧ ∀ name ∈ names, IsName name := by
  obtain ⟨names, hnames, rfl⟩ := exists_of_mem_find hpath
  exact ⟨names, rfl, isName_of_mem_all htree hnames⟩

theorem isAbsolute_of_mem_find (hroot : IsRoot w.root) (hpath : path ∈ (w.find d).1) :
    path.isAbsolute = true := by
  obtain ⟨names, -, rfl⟩ := exists_of_mem_find hpath
  exact hroot.absolute

theorem pairwise_find (htree : w.HasTree d) :
    (w.find d).1.Pairwise fun p q => p.names < q.names := by
  have hall : (w.all d).Pairwise (· < ·) := by
    by_cases hfolder : ∃ entries, d.find w.root = .ok (.folder entries)
    · obtain ⟨entries, hfolder⟩ := hfolder
      exact pairwise_all hfolder (htree entries hfolder)
    · have hnil : w.all d = [] := by
        refine List.eq_nil_iff_forall_not_mem.mpr fun names hnames => ?_
        obtain ⟨entries, h, -⟩ := exists_of_mem_all hnames
        exact hfolder ⟨entries, h⟩
      simp [hnil]
  rw [find_fst, List.pairwise_map]
  exact (hall.sublist (List.take_sublist _ _)).imp fun h => List.append_left_lt h

theorem text_injOn_find (hroot : IsRoot w.root) (htree : w.HasTree d) {p q : Path}
    (hp : p ∈ (w.find d).1) (hq : q ∈ (w.find d).1) (h : p.text = q.text) : p = q := by
  obtain ⟨a, rfl, hane, ha⟩ := exists_names_of_mem_find htree hp
  obtain ⟨b, rfl, hbne, hb⟩ := exists_names_of_mem_find htree hq
  rw [Path.names_eq_of_text_eq hroot.absolute (fun name hname => (ha name hname).slash)
    (fun name hname => (hb name hname).slash) hane hbne h]

theorem address_injOn_find (hroot : IsRoot w.root) (htree : w.HasTree d) {p q : Path}
    (hp : p ∈ (w.find d).1) (hq : q ∈ (w.find d).1) (h : p.address = q.address) : p = q := by
  obtain ⟨a, rfl, hane, ha⟩ := exists_names_of_mem_find htree hp
  obtain ⟨b, rfl, hbne, hb⟩ := exists_names_of_mem_find htree hq
  rw [Path.names_eq_of_address_eq hroot.absolute hroot.points (fun name hname => (ha name hname).slash)
    (fun name hname => (hb name hname).slash) hane hbne (fun hmem => (ha _ hmem).points rfl)
    (fun hmem => (hb _ hmem).points rfl) h]

/-! ### What comes of reading them -/

/-- What comes of reading each of some paths, each on a disk of its own. -/
def reads (paths : List Path) (ds : List Disk) :
    List (Path × Except Disk.ReadError (List Char)) :=
  (paths.zip ds).map fun (path, d) => (path, d.read path)

/-- The stylesheets that could be read. -/
def readable (read : List (Path × Except Disk.ReadError (List Char))) : List Stylesheet :=
  read.filterMap fun
    | (path, .ok text) => some ⟨path.address, String.ofList text⟩
    | (_, .error _) => none

/-- The paths that could not be read, each with the reason. -/
def unreadable (read : List (Path × Except Disk.ReadError (List Char))) : List (Path × String) :=
  read.filterMap fun
    | (_, .ok _) => none
    | (path, .error e) => some (path, e.message path.text)

theorem length_readable_add_length_unreadable
    (read : List (Path × Except Disk.ReadError (List Char))) :
    (readable read).length + (unreadable read).length = read.length := by
  induction read with
  | nil => rfl
  | cons x read ih =>
      obtain ⟨path, text | e⟩ := x <;>
      simp only [readable, unreadable, List.filterMap_cons, List.length_cons] at ih ⊢ <;>
      omega

theorem map_fst_unreadable_sublist (read : List (Path × Except Disk.ReadError (List Char))) :
    ((unreadable read).map Prod.fst).Sublist (read.map Prod.fst) := by
  induction read with
  | nil => exact .slnil
  | cons x read ih =>
      obtain ⟨path, text | e⟩ := x
      · exact ih.cons_cons path
      · exact ih.cons path

theorem map_fst_reads {paths : List Path} {ds : List Disk} (hds : ds.length = paths.length) :
    (reads paths ds).map Prod.fst = paths := by
  rw [reads, List.map_map]
  exact List.map_fst_zip hds.ge

theorem pending_next {b : Rebuild} {rest : List Path} (hpending : b.pending = path :: rest)
    (d : Disk) (r : Registry) : (b.next d r).value.1.pending = rest := by
  rw [Rebuild.next, hpending]
  dsimp only
  split <;> rfl

theorem value_next {b : Rebuild} {rest : List Path} (hpending : b.pending = path :: rest)
    (hpath : path.isAbsolute = true) (d : Disk) (r : Registry) :
    (b.next d r).value = match d.read path with
      | .ok text =>
        (⟨rest, { b.report with indexed := b.report.indexed + 1 }⟩,
          r.indexAll [⟨path.address, String.ofList text⟩])
      | .error e =>
        (⟨rest, { b.report with
          failures := b.report.failures ++ [(path, e.message path.text)] }⟩, r) := by
  rw [Rebuild.next, hpending]
  simp only [Registry.indexFile, Disk.absolute_of_isAbsolute hpath]
  cases d.read path with
  | error e => rfl
  | ok text => rfl

theorem value_drain {b : Rebuild} {ds : List Disk} (hds : ds.length = b.pending.length)
    (hpending : ∀ path ∈ b.pending, path.isAbsolute = true) (r : Registry) :
    (b.drain ds r).value =
      let read := reads b.pending ds
      (⟨[], { b.report with
          indexed := b.report.indexed + (readable read).length
          failures := b.report.failures ++ unreadable read }⟩, r.indexAll (readable read)) := by
  induction ds generalizing b r with
  | nil =>
      have hnil : b.pending = [] := List.length_eq_zero_iff.mp hds.symm
      obtain ⟨pending, report⟩ := b
      subst hnil
      simp [Rebuild.drain, reads, readable, unreadable, Registry.indexAll]
  | cons d ds ih =>
      obtain ⟨pending, report⟩ := b
      cases pending with
      | nil => cases hds
      | cons path rest =>
          rw [Rebuild.drain, Log.Telling.value_bind]
          rw [value_next rfl (hpending path (List.mem_cons_self ..))]
          have hread : reads (path :: rest) (d :: ds) = (path, d.read path) :: reads rest ds := rfl
          have hrest := List.forall_mem_cons.mp hpending |>.2
          simp only [hread]
          cases d.read path with
          | error e =>
              rw [ih (Nat.succ.inj hds) hrest]
              simp [readable, unreadable]
          | ok text =>
              rw [ih (Nat.succ.inj hds) hrest]
              simp [readable, unreadable, Registry.indexAll, Nat.add_right_comm, ← Nat.add_assoc]

theorem value_begin (w : Workspace) (d : Disk) (r : Registry) :
    (w.begin d r).value =
      (⟨(w.find d).1, ⟨(w.find d).1.length, 0, 0, 0, [], (w.find d).2⟩⟩, r.clear) := by
  simp only [begin]
  split <;> rfl

theorem value_finish (b : Rebuild) (r : Registry) : (b.finish r).value =
    { b.report with properties := r.variableCount, classes := r.classCount } :=
  rfl

theorem value_indexOver (hroot : IsRoot w.root) {ds : List Disk}
    (hds : ds.length = (w.find d).1.length) (r : Registry) :
    (w.indexOver d ds r).value =
      let read := reads (w.find d).1 ds
      let r' := r.clear.indexAll (readable read)
      (⟨(w.find d).1.length, (readable read).length, r'.variableCount, r'.classCount,
        unreadable read, (w.find d).2⟩, r') := by
  rw [indexOver, Log.Telling.value_bind, value_begin, Log.Telling.value_bind,
    value_drain hds fun _ => isAbsolute_of_mem_find hroot]
  simp [value_finish]

end Workspace

namespace Service.Rebuilds

open Workspace

/-- The turns of a rebuild that goes on without a break. -/
def alone (d : Disk) (ds : List Disk) : List Turn :=
  .begin d (ds.headD d) :: (ds.tail.map (.goOn 0) ++ [.goOn 0 d])

theorem value_turns_cons (w : Workspace) (x : Rebuilds) (t : Turn) (ts : List Turn) :
    (x.turns w (t :: ts)).value = ((x.turn w t).value.turns w ts).value := by
  simp [turns]

theorem value_turn_goOn (w : Workspace) (s : Service) (d : Disk) (b : Rebuilding) :
    (turn w ⟨s, [b]⟩ (.goOn 0 d)).value = ⟨(s.goOn d b).value.2, [(s.goOn d b).value.1]⟩ :=
  rfl

theorem value_turns_goOn (w : Workspace) {s : Service} {b : Workspace.Rebuild} {ds : List Disk}
    (hds : ds.length = b.pending.length) (d : Disk) :
    (turns w ⟨s, [.going b]⟩ (ds.map (.goOn 0) ++ [.goOn 0 d])).value =
      let (b', r) := (b.drain ds s.library.registry).value
      ⟨s.withLibrary ⟨r, ∅⟩, [.finished (b'.finish r).value]⟩ := by
  induction ds generalizing b s with
  | nil =>
      have hnil : b.pending = [] := List.length_eq_zero_iff.mp hds.symm
      rw [List.map_nil, List.nil_append, value_turns_cons, value_turn_goOn, goOn, hnil]
      rfl
  | cons d' ds ih =>
      obtain ⟨path, rest, hpending⟩ : ∃ path rest, b.pending = path :: rest :=
        List.exists_cons_of_length_pos (by rw [← hds]; exact Nat.succ_pos _)
      rw [List.map_cons, List.cons_append, value_turns_cons, value_turn_goOn, goOn, hpending]
      have hlength : ds.length = (b.next d' s.library.registry).value.1.pending.length := by
        rw [pending_next hpending]
        exact Nat.succ.inj (hds.trans (congrArg List.length hpending))
      exact @ih { s with library := ⟨(b.next d' s.library.registry).value.2, s.library.indexed⟩ }
        _ hlength

theorem value_turns_alone (w : Workspace) (s : Service) {d : Disk} {ds : List Disk}
    (hds : ds.length = (w.find d).1.length) :
    (turns w ⟨s, []⟩ (alone d ds)).value =
      let (report, r) := (w.indexOver d ds s.library.registry).value
      ⟨s.withLibrary ⟨r, ∅⟩, [.finished report]⟩ := by
  have hbegun : ∀ first, (turn w ⟨s, []⟩ (.begin d first)).value =
      let (b, r) := (w.begin d s.library.registry).value
      (turn w ⟨{ s with library := { s.library with registry := r } }, [.going b]⟩
        (.goOn 0 first)).value := fun _ => rfl
  have hlength : ds.length = (w.begin d s.library.registry).value.1.pending.length := by
    rw [value_begin]
    exact hds
  rw [alone, value_turns_cons, hbegun]
  have hgoOn := @value_turns_goOn w
    { s with library := ⟨(w.begin d s.library.registry).value.2, s.library.indexed⟩ } _ _ hlength d
  cases ds with
  | nil =>
      -- With nothing to be read it is over when it has begun, and is asked once more for nothing.
      exact (congrArg (fun x => (turn w x (.goOn 0 d)).value) hgoOn).trans rfl
  | cons d' ds =>
      rw [List.map_cons, List.cons_append, value_turns_cons] at hgoOn
      exact hgoOn

end Service.Rebuilds

namespace Workspace

open Service.Rebuilds

variable {w : Workspace} {d : Disk} {root : Path}

/-- The paths that could not be read have different texts. -/
theorem nodup_texts_unreadable (hroot : IsRoot w.root) (htree : w.HasTree d) {ds : List Disk}
    (hds : ds.length = (w.find d).1.length) :
    ((unreadable (reads (w.find d).1 ds)).map fun failure => failure.1.text).Nodup := by
  have hsub := map_fst_unreadable_sublist (reads (w.find d).1 ds)
  rw [map_fst_reads hds] at hsub
  have hnodup : (w.find d).1.Nodup := (pairwise_find htree).imp fun {p q} h (heq : p = q) =>
    lt_irrefl q.names (heq ▸ h)
  have htexts := (hnodup.sublist hsub).map_on fun p hp q hq =>
    text_injOn_find hroot htree (hsub.subset hp) (hsub.subset hq)
  rw [List.map_map] at htexts
  exact htexts

/-- Whatever stylesheets of a workspace cannot be read when their turn comes, the registry has what
it would have if it were cleared and the others were indexed in their order, and the report says
which ones are missing. A rebuild beside which nothing else runs comes to the same. -/
theorem indexOver_isolates {service : Service} (hw : ofSettings d root service.settings = .ok w)
    (htree : w.HasTree d) {ds : List Disk} (hds : ds.length = (w.find d).1.length) :
    let found := (w.find d).1
    let read := reads found ds
    let (report, r) := (w.indexOver d ds service.library.registry).value
    r = service.library.registry.clear.indexAll (readable read) ∧
      found.Pairwise (fun p q => p.names < q.names) ∧
      report.found = found.length ∧
      report.found = report.indexed + report.failures.length ∧
      report.found ≤ service.settings.maxStylesheets ∧
      report.failures = unreadable read ∧
      (report.failures.map fun failure => failure.1.text).Nodup ∧
      report.properties = r.variableCount ∧
      report.classes = r.classCount ∧
      (report.truncated = true ↔ service.settings.maxStylesheets < (w.all d).length) ∧
      (turns w ⟨service, []⟩ (alone d ds)).value = ⟨service.withLibrary ⟨r, ∅⟩, [.finished report]⟩ := by
  have hroot := isRoot_of_ofSettings hw
  obtain ⟨-, -, -, hlimit⟩ := ofSettings_eq_ok hw
  have hall := value_indexOver hroot hds service.library.registry
  have hread : (reads (w.find d).1 ds).length = (w.find d).1.length := by
    rw [← List.length_map Prod.fst, map_fst_reads hds]
  have halone := value_turns_alone w service hds
  rw [hall] at halone ⊢
  refine ⟨rfl, pairwise_find htree, rfl, ?_, ?_, rfl, nodup_texts_unreadable hroot htree hds, rfl,
    rfl, ?_, halone⟩
  · rw [← hread]
    exact (length_readable_add_length_unreadable _).symm
  · rw [find_fst, List.length_map, ← hlimit]
    exact List.length_take_le _ _
  · rw [← hlimit]
    exact decide_eq_true_iff

/-- A stylesheet that declares one custom property. -/
def whiteTheme : String :=
  ":root\x7b--a:#fff\x7d"

/-- A site with a stylesheet that may not be read, drafts, one that is not text, and a theme. -/
def draftedSite (drafts : List (String × Node)) : List (String × Node) :=
  ("base.css", .locked) :: drafts ++
    [("photo.css", .file [0xFF]), ("theme.css", .file whiteTheme.toUTF8.data.toList)]

def draftedDisk : Disk :=
  siteDisk (draftedSite [("draft.css", .file [])])

theorem hasTree_draftedDisk : unbuiltSite.HasTree draftedDisk := by
  intro entries hfolder
  cases hfolder
  exact ⟨by decide, by decide, fun name below hmem => by simp [draftedSite] at hmem⟩

theorem find_draftedDisk : unbuiltSite.find draftedDisk =
    (["base.css", "draft.css", "photo.css", "theme.css"].map fun name => ⟨"/", ["site", name]⟩,
      false) := by
  have hlisted : unbuiltSite.stylesheetsIn [] (draftedSite [("draft.css", .file [])]) =
      [["base.css"], ["draft.css"], ["photo.css"], ["theme.css"]] := by
    have hwanted : ∀ name ∈ ["base.css", "draft.css", "photo.css", "theme.css"],
        unbuiltSite.isStylesheet [name] = true := by decide +kernel
    simp only [List.forall_mem_cons] at hwanted
    simp [draftedSite, stylesheetsIn, hwanted]
  have hall : unbuiltSite.all draftedDisk =
      [["base.css"], ["draft.css"], ["photo.css"], ["theme.css"]] := by
    rw [all_eq rfl, hlisted]
    exact List.mergeSort_of_pairwise (by decide)
  rw [find, hall]
  rfl

/-- The draft is gone when its turn comes. -/
theorem indexOver_isolates_draftedDisk :
    let after := siteDisk (draftedSite [])
    let (report, r) := (unbuiltSite.indexOver draftedDisk [draftedDisk, after, after, after] ∅).value
    ofSettings draftedDisk ⟨"/", ["site"]⟩ (excluding "build") = .ok unbuiltSite ∧
      r = (∅ : Registry).indexAll [⟨"file:///site/theme.css", whiteTheme⟩] ∧
      report.failures.map (fun failure => failure.1.text) =
        ["/site/base.css", "/site/draft.css", "/site/photo.css"] := by
  intro after
  have hw : ofSettings draftedDisk ⟨"/", ["site"]⟩ (excluding "build") = .ok unbuiltSite := rfl
  have hds : [draftedDisk, after, after, after].length = (unbuiltSite.find draftedDisk).1.length := by
    rw [find_draftedDisk]
    rfl
  obtain ⟨hr, -, -, -, -, hfailures, -⟩ :=
    @indexOver_isolates _ _ _ (.ofSettings (excluding "build")) hw hasTree_draftedDisk _ hds
  rw [find_draftedDisk] at hr hfailures
  refine ⟨hw, hr.trans (congrArg (Registry.indexAll ∅) ?_), (congrArg _ hfailures).trans ?_⟩
  · decide +kernel
  · decide +kernel

end Workspace

end Swatch
