import Mathlib.Data.List.Sort
import Mathlib.Data.String.Basic
import Swatch.Proofs.Workspace.Exclusion
import Swatch.Workspace.Find

/-!
Which files are found below the folder of a workspace. Main statement: that excluded folders are not
looked into loses no file unless a pattern ends in a set of characters that a slash belongs to.
-/

namespace Swatch

namespace Node

/-- The files below a folder, each with the names on the way to it. -/
inductive HasFile : List (String × Node) → List String → Prop
  | here {entries : List (String × Node)} {name : String} {node : Node}
      (h : (name, node) ∈ entries) (hnode : node.isFolder = false) : HasFile entries [name]
  | within {entries inner : List (String × Node)} {name : String} {names : List String}
      (h : (name, .folder inner) ∈ entries) (hinner : HasFile inner names) :
      HasFile entries (name :: names)

/-- What may stand as the name of an entry. -/
structure IsName (name : String) : Prop where
  nonempty : name ≠ ""
  point : name ≠ "."
  points : name ≠ ".."
  slash : '/' ∉ name.toList

instance (name : String) : Decidable (IsName name) :=
  decidable_of_iff (name ≠ "" ∧ name ≠ "." ∧ name ≠ ".." ∧ '/' ∉ name.toList)
    ⟨fun ⟨h₁, h₂, h₃, h₄⟩ => ⟨h₁, h₂, h₃, h₄⟩, fun ⟨h₁, h₂, h₃, h₄⟩ => ⟨h₁, h₂, h₃, h₄⟩⟩

/-- The entries of a folder as a file system has them: with names, each of them once. -/
inductive IsTree : List (String × Node) → Prop
  | mk {entries : List (String × Node)} (nodup : (entries.map Prod.fst).Nodup)
      (names : ∀ e ∈ entries, IsName e.1)
      (inner : ∀ name below, (name, .folder below) ∈ entries → IsTree below) : IsTree entries

section HasFile

variable {entries rest inner : List (String × Node)} {name : String} {names : List String}
  {node : Node}

theorem not_hasFile_nil : ¬ HasFile [] names := by
  rintro (⟨h, -⟩ | ⟨h, -⟩) <;> simp at h

theorem HasFile.mono (hsub : entries ⊆ rest) (h : HasFile entries names) :
    HasFile rest names := by
  cases h with
  | here h hnode => exact .here (hsub h) hnode
  | within h hinner => exact .within (hsub h) hinner

theorem hasFile_cons {e : String × Node} :
    HasFile (e :: rest) names ↔ HasFile [e] names ∨ HasFile rest names := by
  constructor
  · rintro (⟨h, hnode⟩ | ⟨h, hinner⟩) <;> rcases List.mem_cons.mp h with rfl | h
    · exact .inl (.here (List.mem_singleton_self _) hnode)
    · exact .inr (.here h hnode)
    · exact .inl (.within (List.mem_singleton_self _) hinner)
    · exact .inr (.within h hinner)
  · rintro (h | h)
    · exact h.mono (by simp)
    · exact h.mono (by simp)

theorem hasFile_cons_of_not_isFolder (hnode : node.isFolder = false) :
    HasFile ((name, node) :: rest) names ↔ names = [name] ∨ HasFile rest names := by
  refine hasFile_cons.trans (or_congr_left ⟨?_, ?_⟩)
  · rintro (⟨h, -⟩ | ⟨h, -⟩)
    · obtain ⟨rfl, rfl⟩ := Prod.mk.inj (List.mem_singleton.mp h)
      rfl
    · obtain ⟨rfl, rfl⟩ := Prod.mk.inj (List.mem_singleton.mp h)
      cases hnode
  · rintro rfl
    exact .here (List.mem_singleton_self _) hnode

theorem hasFile_cons_file {octets : List UInt8} :
    HasFile ((name, .file octets) :: rest) names ↔ names = [name] ∨ HasFile rest names :=
  hasFile_cons_of_not_isFolder rfl

theorem hasFile_cons_locked :
    HasFile ((name, .locked) :: rest) names ↔ names = [name] ∨ HasFile rest names :=
  hasFile_cons_of_not_isFolder rfl

theorem hasFile_cons_folder : HasFile ((name, .folder inner) :: rest) names ↔
    (∃ below, names = name :: below ∧ HasFile inner below) ∨ HasFile rest names := by
  refine hasFile_cons.trans (or_congr_left ⟨?_, ?_⟩)
  · rintro (⟨h, hnode⟩ | ⟨h, hinner⟩)
    · obtain ⟨rfl, rfl⟩ := Prod.mk.inj (List.mem_singleton.mp h)
      cases hnode
    · obtain ⟨rfl, heq⟩ := Prod.mk.inj (List.mem_singleton.mp h)
      cases heq
      exact ⟨_, rfl, hinner⟩
  · rintro ⟨below, rfl, hinner⟩
    exact .within (List.mem_singleton_self _) hinner

theorem HasFile.exists_head (h : HasFile entries names) :
    ∃ name below, names = name :: below ∧ name ∈ entries.map Prod.fst := by
  cases h with
  | here h => exact ⟨_, _, rfl, List.mem_map.mpr ⟨_, h, rfl⟩⟩
  | within h => exact ⟨_, _, rfl, List.mem_map.mpr ⟨_, h, rfl⟩⟩

theorem HasFile.ne_nil (h : HasFile entries names) : names ≠ [] := by
  obtain ⟨name, below, rfl, -⟩ := h.exists_head
  simp

end HasFile

theorem IsTree.tail {e : String × Node} {entries : List (String × Node)}
    (h : IsTree (e :: entries)) : e.1 ∉ entries.map Prod.fst ∧ IsTree entries := by
  obtain ⟨hnodup, hnames, hinner⟩ := h
  rw [List.map_cons, List.nodup_cons] at hnodup
  exact ⟨hnodup.1, hnodup.2, fun e he => hnames e (List.mem_cons_of_mem _ he),
    fun name below hmem => hinner name below (List.mem_cons_of_mem _ hmem)⟩

theorem IsTree.inner {name : String} {below entries : List (String × Node)}
    (h : IsTree entries) (hmem : (name, .folder below) ∈ entries) : IsTree below := by
  obtain ⟨-, -, hinner⟩ := h
  exact hinner name below hmem

/-- Every name on the way to a file is a name. -/
theorem HasFile.isName {entries : List (String × Node)} {names : List String}
    (h : HasFile entries names) (htree : IsTree entries) : ∀ name ∈ names, IsName name := by
  induction h with
  | here h =>
      obtain ⟨-, hnames, -⟩ := htree
      simpa using hnames _ h
  | within h hinner ih =>
      refine List.forall_mem_cons.mpr ⟨?_, ih (htree.inner h)⟩
      obtain ⟨-, hnames, -⟩ := htree
      exact hnames _ h

end Node

namespace Path

theorem namesLE_iff {a b : List String} : namesLE a b = true ↔ a < b ∨ a = b := by
  induction a generalizing b with
  | nil => cases b <;> simp [namesLE]
  | cons x a ih =>
      cases b with
      | nil => simp [namesLE]
      | cons y b =>
          rw [namesLE]
          split
          · rename_i hxy
            subst hxy
            simp [ih]
          · rename_i hxy
            have hle : x ≤ y ↔ x < y := ⟨fun h => lt_of_le_of_ne h hxy, le_of_lt⟩
            simp [hle, List.cons_lt_cons_iff, hxy]

end Path

namespace Workspace

open Node

variable {w : Workspace}

theorem relative_append {front rest : List String} (hfront : front ≠ []) (hrest : rest ≠ []) :
    relative (front ++ rest) = relative front ++ '/' :: relative rest := by
  rw [relative, String.intercalate_append_of_ne_nil hfront hrest]
  simp [relative]

/-- Whether a file is found below a folder: it is asked for, and no folder on the way is pruned. -/
def IsKept (w : Workspace) (above below : List String) : Prop :=
  w.isStylesheet (above ++ below) = true ∧
    ∀ front rest, below = front ++ rest → front ≠ [] → rest ≠ [] →
      w.isPruned (above ++ front) = false

@[simp] theorem isKept_singleton {above : List String} {name : String} :
    w.IsKept above [name] ↔ w.isStylesheet (above ++ [name]) = true := by
  refine and_iff_left fun front rest heq hfront hrest => ?_
  rcases List.append_eq_singleton_iff.mp heq.symm with ⟨rfl, -⟩ | ⟨-, rfl⟩
  · exact absurd rfl hfront
  · exact absurd rfl hrest

theorem isKept_cons {above below : List String} {name : String} (hbelow : below ≠ []) :
    w.IsKept above (name :: below) ↔
      w.isPruned (above ++ [name]) = false ∧ w.IsKept (above ++ [name]) below := by
  simp only [IsKept, List.append_assoc, List.singleton_append]
  constructor
  · rintro ⟨hstylesheet, hall⟩
    refine ⟨hall [name] below rfl (by simp) hbelow, hstylesheet, ?_⟩
    rintro front rest rfl hfront hrest
    exact hall (name :: front) rest rfl (by simp) hrest
  · rintro ⟨hname, hstylesheet, hall⟩
    refine ⟨hstylesheet, fun front rest heq hfront hrest => ?_⟩
    cases front with
    | nil => exact absurd rfl hfront
    | cons _ front =>
        obtain ⟨rfl, rfl⟩ := List.cons.inj heq
        by_cases hnil : front = []
        · subst hnil
          exact hname
        · exact hall front rest rfl hnil hrest

theorem mem_own_iff {above names : List String} {name : String} :
    (names ∈ if w.isStylesheet (above ++ [name]) then [above ++ [name]] else []) ↔
      names = above ++ [name] ∧ w.IsKept above [name] := by
  rw [isKept_singleton]
  split <;> simp_all

theorem mem_stylesheetsIn {above names : List String} {entries : List (String × Node)} :
    names ∈ w.stylesheetsIn above entries ↔
      ∃ below, names = above ++ below ∧ HasFile entries below ∧ w.IsKept above below := by
  induction above, entries using stylesheetsIn.induct generalizing names with
  | case1 above => simp [stylesheetsIn, not_hasFile_nil]
  | case2 above name octets rest ih | case3 above name rest ih =>
      simp only [stylesheetsIn, List.mem_append, ih, mem_own_iff]
      grind [hasFile_cons_file, hasFile_cons_locked]
  | case4 above name inner rest inside ih₁ =>
      rename_i ih₂
      have hinner : (names ∈ if w.isPruned (above ++ [name]) then []
          else w.stylesheetsIn (above ++ [name]) inner) ↔
          ∃ below, names = above ++ name :: below ∧ HasFile inner below ∧
            w.IsKept above (name :: below) := by
        split
        · rename_i hpruned
          refine iff_of_false List.not_mem_nil ?_
          rintro ⟨below, -, hfile, hkept⟩
          simp [isKept_cons hfile.ne_nil, hpruned] at hkept
        · rename_i hpruned
          rw [ih₁]
          refine exists_congr fun below => and_congr (by simp [inside])
            (and_congr_right fun hfile => ?_)
          rw [isKept_cons hfile.ne_nil, and_iff_right (by simpa using hpruned)]
      rw [stylesheetsIn, List.mem_append, hinner, ih₂]
      simp only [hasFile_cons_folder]
      grind

/-- Each file is found once. -/
theorem nodup_stylesheetsIn {above : List String} {entries : List (String × Node)}
    (htree : IsTree entries) : (w.stylesheetsIn above entries).Nodup := by
  -- What comes of an entry begins with its name, which no later entry has.
  have hdisjoint : ∀ {above : List String} {name : String} {rest : List (String × Node)},
      name ∉ rest.map Prod.fst → ∀ below, above ++ name :: below ∉ w.stylesheetsIn above rest := by
    intro above name rest hname below hmem
    obtain ⟨below', heq, hfile, -⟩ := mem_stylesheetsIn.mp hmem
    obtain ⟨first, _, rfl, hfirst⟩ := hfile.exists_head
    obtain ⟨rfl, -⟩ := List.cons.inj (List.append_cancel_left heq)
    exact hname hfirst
  induction above, entries using stylesheetsIn.induct with
  | case1 above => simp [stylesheetsIn]
  | case2 above name octets rest ih | case3 above name rest ih =>
      obtain ⟨hname, hrest⟩ := htree.tail
      rw [stylesheetsIn]
      split
      · exact List.nodup_cons.mpr ⟨hdisjoint hname [], ih hrest⟩
      · exact ih hrest
  | case4 above name inner rest _ ih₁ ih₂ =>
      obtain ⟨hname, hrest⟩ := htree.tail
      rw [stylesheetsIn]
      split
      · exact ih₂ hrest
      · refine List.nodup_append.mpr
          ⟨ih₁ (htree.inner (List.mem_cons_self ..)), ih₂ hrest, ?_⟩
        rintro _ hin names hafter rfl
        obtain ⟨below, rfl, -, -⟩ := mem_stylesheetsIn.mp hin
        exact hdisjoint hname below (by simpa using hafter)

theorem all_eq {d : Disk} {entries : List (String × Node)}
    (hfolder : d.find w.root = .ok (.folder entries)) :
    w.all d = (w.stylesheetsIn [] entries).mergeSort Path.namesLE := by
  rw [all, hfolder]

theorem pairwise_all {d : Disk} {entries : List (String × Node)}
    (hfolder : d.find w.root = .ok (.folder entries)) (htree : IsTree entries) :
    (w.all d).Pairwise (· < ·) := by
  have hperm := List.mergeSort_perm (w.stylesheetsIn [] entries) Path.namesLE
  have hle := @List.pairwise_mergeSort _ Path.namesLE
    (fun a b c hab hbc => by
      rw [Path.namesLE_iff] at hab hbc ⊢
      grind [lt_trans])
    (fun a b => by
      rw [Bool.or_eq_true, Path.namesLE_iff, Path.namesLE_iff]
      grind [lt_trichotomy])
    (w.stylesheetsIn [] entries)
  rw [all_eq hfolder]
  refine (hle.and (hperm.nodup_iff.mpr (nodup_stylesheetsIn htree))).imp fun h => ?_
  exact (Path.namesLE_iff.mp h.1).resolve_right h.2

theorem mem_all {d : Disk} {entries : List (String × Node)} {names : List String}
    (hfolder : d.find w.root = .ok (.folder entries)) :
    names ∈ w.all d ↔ HasFile entries names ∧ w.IsKept [] names := by
  simp [all_eq hfolder, mem_stylesheetsIn]

/-- No file that is not excluded itself is below a pruned folder. -/
theorem isKept_iff (hnegated : ∀ p ∈ w.excluded, p.includes = true)
    (hname : ∀ p ∈ w.excluded, p.rule.EndsInName)
    (hslash : ∀ p ∈ w.excluded, p.rule.endsOnSlash = false) {names : List String} :
    w.IsKept [] names ↔ w.isStylesheet names = true := by
  refine and_iff_left_of_imp fun h => ?_
  rintro front rest rfl hfront hrest
  by_contra hpruned
  have htaken : Pattern.takeIn w.excluded (relative front ++ ['/']) = true := by
    simpa [isPruned] using hpruned
  have hbelow := Pattern.takeIn_below hnegated hname hslash htaken (relative rest)
  simp [isStylesheet, relative_append hfront hrest, hbelow] at h

theorem ofSettings_eq_ok {d : Disk} {root : Path} {s : Settings}
    (hw : ofSettings d root s = .ok w) :
    Pattern.ofTexts s.stylesheetPatterns = .ok w.wanted ∧
      Pattern.ofTexts s.excludePatterns = .ok w.excluded ∧
      w.root = (d.absolute root).normal ∧ w.limit = s.maxStylesheets := by
  obtain ⟨wanted, hwanted, hw⟩ := bind_eq_ok.mp hw
  obtain ⟨excluded, hexcluded, hw⟩ := bind_eq_ok.mp hw
  cases hw
  exact ⟨hwanted, hexcluded, rfl, rfl⟩

/-- That what is found are the first of the files, in the order of the names on the way to them, that
are asked for and not excluded. -/
def FindsUnexcluded (w : Workspace) (d : Disk) (entries : List (String × Node)) (limit : Nat) :
    Prop :=
  ∃ files : List (List String), files.Pairwise (· < ·) ∧
    (∀ names, names ∈ files ↔ HasFile entries names ∧
      Pattern.takeIn w.wanted (relative names) = true ∧
      Pattern.takeIn w.excluded (relative names) = false) ∧
    w.find d = ((files.take limit).map fun names =>
      { w.root with names := w.root.names ++ names }, decide (limit < files.length))

/-- Not to look into excluded folders loses no file, and how the disk lists its entries does not
matter, if no pattern takes back what others exclude and none ends in a set of characters that a
slash belongs to. -/
theorem findsUnexcluded_of_ofSettings {d : Disk} {root : Path} {s : Settings}
    {entries : List (String × Node)} (hw : ofSettings d root s = .ok w)
    (hfolder : d.find w.root = .ok (.folder entries)) (htree : IsTree entries)
    (hnegated : ∀ p ∈ w.excluded, p.includes = true)
    (hslash : ∀ p ∈ w.excluded, p.rule.endsOnSlash = false) :
    w.FindsUnexcluded d entries s.maxStylesheets ∧
      ∀ (d' : Disk) (entries' : List (String × Node)),
        d'.find w.root = .ok (.folder entries') → IsTree entries' →
        (∀ names, HasFile entries' names ↔ HasFile entries names) → w.find d' = w.find d := by
  obtain ⟨-, hexcluded, -, hlimit⟩ := ofSettings_eq_ok hw
  have hkept := @isKept_iff w hnegated (Pattern.ofTexts_eq_ok hexcluded) hslash
  refine ⟨⟨w.all d, pairwise_all hfolder htree, fun names => ?_, by rw [← hlimit]; rfl⟩, ?_⟩
  · rw [mem_all hfolder, hkept]
    simp [isStylesheet]
  · intro d' entries' hfolder' htree' hsame
    have hall : w.all d' = w.all d :=
      (pairwise_all hfolder' htree').eq_of_mem_iff (pairwise_all hfolder htree) fun {names} => by
        rw [mem_all hfolder', mem_all hfolder, hsame]
    rw [find, hall]
    rfl

/-- A folder whose stylesheets are looked for, unless a pattern excludes them. -/
def site (pattern : Pattern) : Workspace where
  root := ⟨"/", ["site"]⟩
  wanted := [⟨true, .path true (.anyChars :: ".css".toList.map .char) false⟩]
  excluded := [pattern]
  limit := 100

/-- The site without what is below a folder for builds. -/
def unbuiltSite : Workspace :=
  site ⟨true, .path true ("build".toList.map .char) false⟩

def siteDisk (entries : List (String × Node)) : Disk :=
  ⟨.folder [("site", .folder entries)], []⟩

def excluding (pattern : String) : Settings :=
  { Settings.default with excludePatterns := [pattern] }

/-- A stylesheet that may not be read, one below a folder with a name of its own, and one besides. -/
def builtSite : List (String × Node) :=
  [("theme.css", .file []), ("build", .folder [("out.css", .file [])]), ("base.css", .locked)]

theorem isTree_builtSite : IsTree builtSite := by
  refine ⟨by decide, by decide, fun name below hmem => ?_⟩
  obtain ⟨rfl, rfl⟩ : name = "build" ∧ below = [("out.css", .file [])] := by
    simpa [builtSite] using hmem
  exact ⟨by decide, by decide, by simp⟩

theorem findsUnexcluded_of_ofSettings_builtSite :
    ofSettings (siteDisk builtSite) ⟨"/", ["site"]⟩ (excluding "build") = .ok unbuiltSite ∧
      unbuiltSite.FindsUnexcluded (siteDisk builtSite) builtSite 100 ∧
      unbuiltSite.find (siteDisk builtSite.reverse) = unbuiltSite.find (siteDisk builtSite) := by
  have hw : ofSettings (siteDisk builtSite) ⟨"/", ["site"]⟩ (excluding "build") =
      .ok unbuiltSite := rfl
  have hreverse : IsTree builtSite.reverse := by
    obtain ⟨-, hnames, hinner⟩ := isTree_builtSite
    exact ⟨by decide, by simpa using hnames, by simpa using hinner⟩
  obtain ⟨hfinds, hsame⟩ := findsUnexcluded_of_ofSettings hw rfl isTree_builtSite
    (by decide) (by decide)
  exact ⟨hw, hfinds, hsame _ builtSite.reverse rfl hreverse fun _ =>
    ⟨.mono fun _ => List.mem_reverse.mp, .mono fun _ => List.mem_reverse.mpr⟩⟩

/-- A pattern that a folder matches with the slash behind it only: the stylesheet in the folder is
not excluded, and still not found. -/
theorem not_findsUnexcluded_of_slash_in_set :
    ¬∀ (d : Disk) (root : Path) (s : Settings) (w : Workspace) (entries : List (String × Node)),
      ofSettings d root s = .ok w → d.find w.root = .ok (.folder entries) → IsTree entries →
      (∀ p ∈ w.excluded, p.includes = true) → w.FindsUnexcluded d entries s.maxStylesheets := by
  intro hall
  let w := site ⟨true, .path true ("dir".toList.map .char ++ [.oneOf true [('a', 'a')]]) false⟩
  let inner : List (String × Node) := [("x.css", .file [])]
  let entries : List (String × Node) := [("dir", .folder inner)]
  have hw : ofSettings (siteDisk entries) ⟨"/", ["site"]⟩ (excluding "dir[!a]") = .ok w := rfl
  have htree : IsTree entries := by
    refine ⟨by decide, by decide, fun name below hmem => ?_⟩
    obtain ⟨rfl, rfl⟩ : name = "dir" ∧ below = inner := by simpa [entries] using hmem
    exact ⟨by decide, by decide, by simp [inner]⟩
  obtain ⟨files, -, hmem, hfind⟩ := hall _ _ _ w entries hw rfl htree (by decide)
  have hfile : ["dir", "x.css"] ∈ files :=
    (hmem _).mpr ⟨.within (List.mem_singleton_self _) (.here (List.mem_singleton_self _) rfl),
      by decide +kernel, by decide +kernel⟩
  have hpruned : w.isPruned ["dir"] = true := by decide +kernel
  have hnothing : w.find (siteDisk entries) = ([], false) := by
    have hall : w.all (siteDisk entries) = [] := by
      rw [all_eq rfl]
      simp [entries, stylesheetsIn, hpruned]
    rw [find, hall]
    rfl
  rw [hnothing] at hfind
  have htake := List.map_eq_nil_iff.mp (congrArg Prod.fst hfind).symm
  rcases List.take_eq_nil_iff.mp htake with h | rfl
  · cases h
  · simp at hfile

end Workspace

end Swatch
