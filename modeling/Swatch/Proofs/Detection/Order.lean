import Swatch.Proofs.Registry.Indexing
import Swatch.Service.Library

/-!
Detection and palette go by what the registry answers. Main statement: the order in which stylesheets
were indexed does not show in the colours that are found, as long as none of them looks up what a
later one declares; where one does, it shows.
-/

namespace Swatch

namespace Registry.Alike

variable {r r' : Registry} {locals : Keyed String (List Declaration)}

theorem preferred? (ha : r.Alike r') (locals : Keyed String (List Declaration)) (name : String) :
    Scope.preferred? ⟨locals, r⟩ name = Scope.preferred? ⟨locals, r'⟩ name := by
  simp only [Scope.preferred?, ha.variablesSorted]

theorem resolve (ha : r.Alike r') (locals : Keyed String (List Declaration)) (visited : List String)
    (value : List Char) :
    Resolution.resolve ⟨locals, r⟩ visited value = Resolution.resolve ⟨locals, r'⟩ visited value :=
  Resolution.resolve_congr fun name _ => congrArg (Option.map _) (ha.preferred? locals name)

theorem resolveDeclaration (ha : r.Alike r') (locals : Keyed String (List Declaration))
    (d : Declaration) :
    Resolution.resolveDeclaration ⟨locals, r⟩ d = Resolution.resolveDeclaration ⟨locals, r'⟩ d := by
  simp only [Resolution.resolveDeclaration, Resolution.resolveText, ha.resolve]

theorem valueOf? (ha : r.Alike r') (name : String) : r.valueOf? name = r'.valueOf? name := by
  rw [Registry.valueOf?, Registry.valueOf?, ha.variablesSorted]

end Registry.Alike

namespace Detection

variable {r r' : Registry}

/-- A snapshot with another registry in reach of the references. -/
def Snapshot.within (s : Snapshot) (r : Registry) : Snapshot :=
  { s with scope := ⟨s.scope.locals, r⟩ }

variable {s : Snapshot}

theorem colorOf?_congr (ha : r.Alike r') (locals : Keyed String (List Declaration)) (name : String)
    (wrap : String → String) : colorOf? ⟨locals, r⟩ name wrap = colorOf? ⟨locals, r'⟩ name wrap := by
  simp only [colorOf?, ha.preferred?, ha.resolveDeclaration]

theorem classValue_congr (ha : r.Alike r') (c : ClassColor) : classValue r c = classValue r' c := by
  simp only [classValue, Resolution.resolveText, Scope.ofRegistry, ha.resolve]

theorem recordsOf_congr {α : Type} {read : Text.Recogniser α}
    {record? record?' : Text.Hit α → Traced (Option Record)} {s' : Snapshot} (htext : s.text = s'.text)
    (hsame : ∀ hit, record? hit = record?' hit) : recordsOf read s record? = recordsOf read s' record?' := by
  rw [recordsOf, recordsOf, htext, funext hsame]

theorem classNames_congr (ha : s.scope.registry.Alike r') : classNames s = classNames (s.within r') := by
  simp only [classNames, Snapshot.within, ← ha.classColors?, ← classValue_congr ha]
  rfl

theorem declarations_congr (ha : s.scope.registry.Alike r') :
    declarations s = declarations (s.within r') := by
  simp only [declarations, Snapshot.within, Scope.ofRegistry, ← ha.resolveDeclaration]
  rfl

/-- Of the registry, a pass goes by the colours that names stand for, by those of classes, and by those
of the text's own declarations. -/
theorem pass_congr_of
    (hcolor : ∀ name wrap, colorOf? s.scope name wrap = colorOf? (s.within r').scope name wrap)
    (hclasses : classNames s = classNames (s.within r'))
    (hdeclarations : declarations s = declarations (s.within r'))
    {pass : Snapshot → Traced (List Record)} (hpass : pass ∈ passes) : pass s = pass (s.within r') := by
  simp only [passes, List.mem_cons, List.not_mem_nil, or_false] at hpass
  rcases hpass with rfl | rfl | rfl | rfl | rfl | rfl | rfl | rfl
  · rfl
  · rfl
  · rfl
  · exact recordsOf_congr rfl fun hit => by simp only [hcolor]; rfl
  · exact recordsOf_congr rfl fun hit => by simp only [hcolor]; rfl
  · exact recordsOf_congr rfl fun hit => by simp only [hcolor]; rfl
  · exact hclasses
  · exact hdeclarations

/-- Registries that neither the snapshot of a text nor a pass over it tells apart give the same. -/
theorem detect_congr_of {source text : String}
    (hat : Sheet.variablesAt r source text.toList (LineIndex.ofChars text.toList) =
      Sheet.variablesAt r' source text.toList (LineIndex.ofChars text.toList))
    (hpass : ∀ pass ∈ passes, pass (Snapshot.take r source text.toList).value =
      pass ((Snapshot.take r source text.toList).value.within r')) :
    detect r source text = detect r' source text := by
  have htake : Snapshot.take r' source text.toList =
      (fun s => s.within r') <$> Snapshot.take r source text.toList := by
    simp only [Snapshot.take, ← hat, map_bind, map_pure]
    rfl
  unfold detect
  rw [htake, bind_map_left]
  refine Traced.bind_congr ?_
  have hpasses : (passes.mapM fun pass => pass (Snapshot.take r source text.toList).value) =
      passes.mapM fun pass => pass ((Snapshot.take r source text.toList).value.within r') :=
    Traced.mapM_congr hpass
  rw [hpasses]

theorem detect_congr (ha : r.Alike r') (source text : String) :
    detect r source text = detect r' source text := by
  refine detect_congr_of (Sheet.variablesAt_congr fun name _ _ => ha.valueOf? name) fun pass hpass => ?_
  exact pass_congr_of (colorOf?_congr ha _) (classNames_congr ha) (declarations_congr ha) hpass

end Detection

/-- The palette of a library does not tell registries apart that answer alike. -/
theorem Library.palette_congr {r r' : Registry} (ha : r.Alike r') (indexed indexed' : Keyed String Int) :
    Library.palette ⟨r, indexed⟩ = Library.palette ⟨r', indexed'⟩ := by
  have hsorted : ∀ names : List String,
      (names.mergeSort fun a b => decide (a ≤ b)).Pairwise fun a b => decide (a ≤ b) = true := by
    refine List.pairwise_mergeSort (fun a b c hab hbc => ?_) fun a b => ?_
    · simp only [decide_eq_true_eq] at hab hbc ⊢
      exact String.le_trans hab hbc
    · simpa using String.le_total a b
  have hnames : (r.declarations.keys.mergeSort fun a b => decide (a ≤ b)) =
      r'.declarations.keys.mergeSort fun a b => decide (a ≤ b) := by
    refine List.Perm.eq_of_pairwise (fun a b _ _ hab hba => ?_) (hsorted _) (hsorted _) ?_
    · exact String.le_antisymm (of_decide_eq_true hab) (of_decide_eq_true hba)
    · exact (List.mergeSort_perm _ _).trans (ha.keys.trans (List.mergeSort_perm _ _).symm)
  simp only [Library.palette, hnames, Scope.ofRegistry, ha.preferred?, ha.resolveDeclaration]

namespace Detection

/-- Stylesheets that declare nothing in common may be indexed in any order in which none looks up what
a later one declares: the same colours are found in every text, and the palette is the same. -/
theorem found_of_looksBack {sheets sheets' : List Stylesheet} (hperm : sheets.Perm sheets')
    (hsources : (sheets.map (·.source)).Nodup)
    (hapart : (Registry.readings ∅ sheets).Pairwise Sheet.Apart)
    (hback : Registry.LooksBack ∅ sheets) (hback' : Registry.LooksBack ∅ sheets') :
    (∀ source text, detect ((∅ : Registry).indexAll sheets) source text =
        detect ((∅ : Registry).indexAll sheets') source text) ∧
      ∀ indexed, Library.palette ⟨(∅ : Registry).indexAll sheets, indexed⟩ =
        Library.palette ⟨(∅ : Registry).indexAll sheets', indexed⟩ := by
  have ha := Registry.alike_of_looksBack hperm hsources hapart hback hback'
  exact ⟨detect_congr ha, fun indexed => Library.palette_congr ha indexed indexed⟩

def base : Stylesheet := ⟨"base.css", ":root\x7b--ink:#fff\x7d"⟩

def accent : Stylesheet := ⟨"accent.css", ":root\x7b--accent:var(--ink)\x7d .title\x7bcolor:var(--accent)\x7d"⟩

def paper : Stylesheet := ⟨"paper.css", ":root\x7b--paper:#000\x7d"⟩

theorem found_of_looksBack_accentAfterBase :
    [base, accent, paper].Perm [paper, base, accent] ∧
      ([base, accent, paper].map (·.source)).Nodup ∧
      (Registry.readings ∅ [base, accent, paper]).Pairwise Sheet.Apart ∧
      Registry.LooksBack ∅ [base, accent, paper] ∧ Registry.LooksBack ∅ [paper, base, accent] ∧
      (detect ((∅ : Registry).indexAll [base, accent, paper]) inlineSource "var(--accent)").value.map
          (·.css) = ["rgb(255, 255, 255)"] ∧
      detect ((∅ : Registry).indexAll [base, accent, paper]) inlineSource "var(--accent)" =
        detect ((∅ : Registry).indexAll [paper, base, accent]) inlineSource "var(--accent)" ∧
      Library.palette ⟨(∅ : Registry).indexAll [base, accent, paper], ∅⟩ =
        Library.palette ⟨(∅ : Registry).indexAll [paper, base, accent], ∅⟩ := by
  have hperm : [base, accent, paper].Perm [paper, base, accent] := by decide
  have hsources : ([base, accent, paper].map (·.source)).Nodup := by decide
  have hapart : (Registry.readings ∅ [base, accent, paper]).Pairwise Sheet.Apart := by decide +kernel
  have hback : Registry.LooksBack ∅ [base, accent, paper] := by decide +kernel
  have hback' : Registry.LooksBack ∅ [paper, base, accent] := by decide +kernel
  obtain ⟨hdetect, hpalette⟩ := found_of_looksBack hperm hsources hapart hback hback'
  exact ⟨hperm, hsources, hapart, hback, hback', by decide +kernel, hdetect _ _, hpalette ∅⟩

/-- An accent that looks ahead: indexed before its base, it has no colour, and has one afterwards. -/
theorem not_found_of_accentBeforeBase :
    ¬∀ sheets sheets' : List Stylesheet, sheets.Perm sheets' → (sheets.map (·.source)).Nodup →
      (Registry.readings ∅ sheets).Pairwise Sheet.Apart →
      (∀ text, (detect ((∅ : Registry).indexAll sheets) inlineSource text).value =
          (detect ((∅ : Registry).indexAll sheets') inlineSource text).value) ∧
        (Library.palette ⟨(∅ : Registry).indexAll sheets, ∅⟩).value =
          (Library.palette ⟨(∅ : Registry).indexAll sheets', ∅⟩).value := by
  intro hall
  have hfound := (hall [accent, base] [base, accent] (by decide) (by decide) (by decide +kernel)).1
    "var(--accent)"
  have hlength := congrArg List.length hfound
  revert hlength
  decide +kernel

end Detection

end Swatch
