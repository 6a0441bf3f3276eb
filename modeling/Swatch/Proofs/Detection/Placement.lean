import Swatch.Detection.Detect
import Swatch.Proofs.Color.Reading
import Swatch.Proofs.Detection.Token
import Swatch.Proofs.Document.Lines

/-!
What detection answers with. Every record names a piece of the text, by its range and by the piece
itself, and the canonical text of its colour; no two records have the same range.
-/

namespace Swatch

open Text

/-! ### Records that fit a text -/

namespace Record

def start (r : Record) (cs : List Char) : Int :=
  (LineIndex.ofChars cs).offsetAt r.range.start

def stop (r : Record) (cs : List Char) : Int :=
  (LineIndex.ofChars cs).offsetAt r.range.stop

/-- A record of a text: its range delimits a piece of the text, which is its text, and the rest of
what it says goes by its colour. -/
structure Fits (r : Record) (cs : List Char) : Prop where
  bounds : 0 ≤ r.start cs ∧ r.start cs < r.stop cs ∧ r.stop cs ≤ cs.length
  text_eq : String.ofList ((cs.take (r.stop cs).toNat).drop (r.start cs).toNat) = r.text
  range_eq : (LineIndex.ofChars cs).range (r.start cs) (r.stop cs) = r.range
  css_eq : r.color.css? = .ok r.css
  format_eq : r.format = r.color.written
  property_eq : r.mark.isDeclaration = true → r.mark.property = some r.text

/-! ### Merging -/

section Merge

variable {α : Type} {entries : List (Range × α)} {seen : List String}

theorem firstOfEach_sublist (seen : List String) (entries : List (Range × α)) :
    (firstOfEach seen entries).Sublist entries := by
  induction entries generalizing seen with
  | nil => exact List.Sublist.slnil
  | cons entry rest ih =>
    unfold firstOfEach
    dsimp only
    split
    · exact (ih seen).cons entry
    · exact (ih _).cons_cons entry

theorem key_notMem_of_mem_firstOfEach {entry : Range × α}
    (hmem : entry ∈ firstOfEach seen entries) : entry.1.key ∉ seen := by
  induction entries generalizing seen with
  | nil => simp [firstOfEach] at hmem
  | cons first rest ih =>
    unfold firstOfEach at hmem
    dsimp only at hmem
    split at hmem
    · exact ih hmem
    · rename_i hnew
      rcases List.mem_cons.mp hmem with rfl | hrest
      · simpa using hnew
      · exact fun hseen => ih hrest (List.mem_cons_of_mem _ hseen)

/-- No two entries that are kept have the same range. -/
theorem nodup_firstOfEach (seen : List String) (entries : List (Range × α)) :
    ((firstOfEach seen entries).map (·.1)).Nodup := by
  induction entries generalizing seen with
  | nil => exact List.nodup_nil
  | cons entry rest ih =>
    unfold firstOfEach
    dsimp only
    split
    · exact ih seen
    · rw [List.map_cons, List.nodup_cons]
      refine ⟨fun hmem => ?_, ih _⟩
      obtain ⟨entry', hentry', heq⟩ := List.mem_map.mp hmem
      exact key_notMem_of_mem_firstOfEach hentry' (heq ▸ List.mem_cons_self)

end Merge

end Record

namespace Detection

/-! ### Passes -/

/-- A snapshot whose lines are those of its text, in which its declarations stand. -/
structure Snapshot.IsOfText (s : Snapshot) : Prop where
  lines_eq : s.lines = LineIndex.ofChars s.text
  standsAt : ∀ entry ∈ s.declarations, StandsAt s.text entry.2.name.toList entry.1

/-- A record of a token that stands in the text, with a colour that is finite. -/
theorem fits_record {s : Snapshot} (hs : s.IsOfText) {start : Nat} {token : List Char}
    {color : Color Float} {mark : Mark} (htoken : StandsAt s.text token start)
    (hcolor : color.IsFinite)
    (hmark : mark.isDeclaration = true → mark.property = some (String.ofList token)) :
    (s.record start token color mark).Fits s.text := by
  have hle := htoken.le_length
  have hpos := htoken.length_pos
  have hstart : (s.record start token color mark).start s.text = start := by
    rw [Record.start, Snapshot.record, hs.lines_eq]
    exact LineIndex.offsetAt_positionAt s.text (by omega)
  have hstop : (s.record start token color mark).stop s.text = (start + token.length : Nat) := by
    rw [Record.stop, Snapshot.record, hs.lines_eq]
    exact LineIndex.offsetAt_positionAt s.text (by omega)
  refine ⟨?_, ?_, ?_, hcolor.css?_eq, rfl, hmark⟩
  · rw [hstart, hstop]
    omega
  · rw [hstart, hstop, Int.toNat_natCast, Int.toNat_natCast, List.drop_take,
      Nat.add_sub_cancel_left, htoken.take_eq]
    rfl
  · rw [hstart, hstop, Snapshot.record, hs.lines_eq]
    rfl

theorem mem_recordsOf {α : Type} {read : Recogniser α} {s : Snapshot}
    {record? : Hit α → Traced (Option Record)} {record : Record}
    (hmem : record ∈ (recordsOf read s record?).value) :
    ∃ hit ∈ hits read s.text, (record? hit).value = some record := by
  rw [recordsOf, Traced.value_bind, Traced.value_mapM] at hmem
  simpa using hmem

section Passes

variable {s : Snapshot} {record : Record}

theorem fits_literals (hs : s.IsOfText) {read : Recogniser (List Char)}
    (hread : ∀ {before cs value after}, read before cs = some (value, after) → Begins value cs)
    (hmem : record ∈ literals read s) : record.Fits s.text := by
  obtain ⟨hit, hhit, hrecord⟩ := List.mem_filterMap.mp hmem
  obtain ⟨color, hcolor, rfl⟩ := Option.map_eq_some_iff.mp hrecord
  have hstands : StandsAt s.text hit.value hit.start := standsAt_of_mem_hits hread hhit
  exact fits_record hs hstands (Color.isFinite_of_ofChars? hcolor) fun h => by cases h

/-- A word of a class attribute is a record if the first colour of its class is one. -/
theorem mem_classNames : record ∈ (classNames s).value ↔
    ∃ hit ∈ hits Token.classAttribute? s.text, ∃ word ∈ hits Token.word? hit.value.2, ∃ c rest color,
      s.scope.registry.classColors? (String.ofList word.value) = some (c :: rest) ∧
        Color.ofText? (classValue s.scope.registry c).value = some color ∧
          s.record (hit.start + hit.value.1 + word.start) word.value color
            { className := String.ofList word.value } = record := by
  rw [classNames, Traced.value_bind, Traced.value_mapM, Traced.value_pure]
  constructor
  · intro hmem
    obtain ⟨found, hfound, hrecord⟩ := List.mem_filterMap.mp hmem
    obtain ⟨_, hattribute, hfound⟩ := List.mem_flatten.mp hfound
    obtain ⟨hit, hhit, rfl⟩ := List.mem_map.mp hattribute
    rw [Traced.value_mapM] at hfound
    obtain ⟨word, hword, rfl⟩ := List.mem_map.mp hfound
    dsimp only at hrecord
    split at hrecord
    · rename_i c rest hclass
      obtain ⟨color, hcolor, rfl⟩ := Option.map_eq_some_iff.mp hrecord
      exact ⟨hit, hhit, word, hword, c, rest, color, hclass, hcolor, rfl⟩
    · cases hrecord
  · rintro ⟨hit, hhit, word, hword, c, rest, color, hclass, hcolor, rfl⟩
    refine List.mem_filterMap.mpr ⟨some _, List.mem_flatten.mpr
      ⟨_, List.mem_map.mpr ⟨hit, hhit, rfl⟩, ?_⟩, rfl⟩
    rw [Traced.value_mapM]
    refine List.mem_map.mpr ⟨word, hword, ?_⟩
    simp [hclass, hcolor]

theorem mem_declarations (hmem : record ∈ (declarations s).value) :
    ∃ entry ∈ s.declarations, ∃ value color, Color.ofText? value = some color ∧
      s.record entry.1 entry.2.name.toList color
        { property := entry.2.name, isDeclaration := true } = record := by
  rw [declarations, Traced.value_bind, Traced.value_mapM, Traced.value_pure] at hmem
  obtain ⟨found, hfound, hrecord⟩ := List.mem_filterMap.mp hmem
  obtain ⟨entry, hentry, rfl⟩ := List.mem_map.mp hfound
  obtain ⟨color, hcolor, rfl⟩ := Option.map_eq_some_iff.mp hrecord
  exact ⟨entry, hentry, _, color, hcolor, rfl⟩

end Passes

/-! ### The snapshot -/

/-- Each declaration of a text is that of its own property. -/
theorem value_variablesAt (r : Registry) (source : String) (cs : List Char) (lines : LineIndex) :
    (Sheet.variablesAt r source cs lines).value.map (fun entry => (entry.1, entry.2.name)) =
      (CustomProperty.all cs).map fun p => (p.start, p.name) := by
  simp [Sheet.variablesAt, Sheet.resolved, Sheet.declaration, Function.comp_def]

theorem isOfText_take (r : Registry) (source : String) (cs : List Char) :
    (Snapshot.take r source cs).value.IsOfText := by
  refine ⟨rfl, fun entry hentry => ?_⟩
  have hmem : (entry.1, entry.2.name) ∈ (CustomProperty.all cs).map fun p => (p.start, p.name) :=
    value_variablesAt r source cs (LineIndex.ofChars cs) ▸ List.mem_map_of_mem hentry
  obtain ⟨p, hp, heq⟩ := List.mem_map.mp hmem
  obtain ⟨hstart, hname⟩ := Prod.mk.inj heq
  rw [← hstart, ← hname]
  exact CustomProperty.standsAt_of_mem_all hp

/-- The records of every pass, each with its range. -/
def candidates (s : Snapshot) : List (List (Range × Record)) :=
  passes.map fun pass => (pass s).value.map fun record => (record.range, record)

theorem value_detect (r : Registry) (source text : String) :
    (detect r source text).value =
      (Record.merge (candidates (Snapshot.take r source text.toList).value)).map (·.2) := by
  rw [detect, Traced.value_bind, Traced.value_bind, Traced.value_mapM, Traced.value_pure,
    List.map_map]
  rfl

def brandAndCard : String :=
  ":root\x7b--brand:#1e90ff\x7d\n.card\x7bcolor:var(--brand)\x7d"

end Detection

end Swatch
