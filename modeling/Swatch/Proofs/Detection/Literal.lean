import Swatch.Proofs.Detection.LiteralToken
import Swatch.Proofs.Detection.Merging
import Swatch.Proofs.Detection.Shadowing

/-!
Literals in a document. Main statement: each token of hexadecimal digits and each compact triple has one
record and keeps it, whatever else is found in the text; the records stand in the order of their tokens, and
those of hexadecimal digits before all others.
-/

namespace Swatch

open Text

theorem forall₂_filterMap {α β : Type} {R : α → β → Prop} {f : α → Option β} {xs : List α}
    (h : ∀ x ∈ xs, ∃ y, f x = some y ∧ R x y) : List.Forall₂ R xs (xs.filterMap f) := by
  induction xs with
  | nil => exact .nil
  | cons x xs ih =>
    rw [List.forall_mem_cons] at h
    obtain ⟨⟨y, hy, hR⟩, hrest⟩ := h
    rw [List.filterMap_cons_some hy]
    exact .cons hR (ih hrest)

namespace Record

/-! ### Records of literals -/

/-- A record of a token that is a colour by itself. -/
structure IsLiteral (record : Record) : Prop where
  color_eq : Color.ofText? record.text = some record.color
  format_eq : record.format = record.color.written
  mark_eq : record.mark = {}

/-- The record of a token at its place. -/
structure Shows (record : Record) (cs : List Char) (hit : Hit (List Char)) : Prop
    extends record.IsLiteral where
  text_eq : record.text = String.ofList hit.value
  range_eq : record.range = (LineIndex.ofChars cs).range hit.start hit.stop

def isLiteralIn (formats : List Format) (record : Record) : Bool :=
  record.mark = {} && formats.contains record.format

variable {a b record : Record} {cs : List Char} {formats formats' : List Format}

theorem isLiteralIn_iff :
    record.isLiteralIn formats = true ↔ record.mark = {} ∧ record.format ∈ formats := by
  rw [isLiteralIn, Bool.and_eq_true, decide_eq_true_eq, List.contains_iff_mem]

theorem filter_isLiteralIn_eq_self {records : List Record}
    (h : ∀ record ∈ records, record.IsLiteral ∧ record.format ∈ formats) :
    records.filter (isLiteralIn formats) = records :=
  List.filter_eq_self.mpr fun record hmem => isLiteralIn_iff.mpr ((h record hmem).imp_left (·.mark_eq))

theorem filter_isLiteralIn_eq_nil {records : List Record}
    (h : ∀ record ∈ records, record.mark = {} → record.format ∉ formats) :
    records.filter (isLiteralIn formats) = [] :=
  List.filter_eq_nil_iff.mpr fun record hmem hliteral =>
    h record hmem (isLiteralIn_iff.mp hliteral).1 (isLiteralIn_iff.mp hliteral).2

theorem Shows.start_eq {hit : Hit (List Char)} (h : record.Shows cs hit) (hle : hit.start ≤ cs.length) :
    record.start cs = hit.start := by
  rw [start, h.range_eq]
  exact LineIndex.offsetAt_positionAt cs hle

theorem Shows.stop_eq {hit : Hit (List Char)} (h : record.Shows cs hit) (hle : hit.stop ≤ cs.length) :
    record.stop cs = hit.stop := by
  rw [stop, h.range_eq]
  exact LineIndex.offsetAt_positionAt cs hle

/-- Literals at one place are the same colour. -/
theorem IsLiteral.format_eq_of_range_eq (ha : a.IsLiteral) (hb : b.IsLiteral) (hfits : a.Fits cs)
    (hfits' : b.Fits cs) (hrange : a.range = b.range) : a.format = b.format := by
  have htext : a.text = b.text := by
    rw [← hfits.text_eq, ← hfits'.text_eq, start, stop, start, stop, hrange]
  have hcolor : a.color = b.color :=
    Option.some.inj (ha.color_eq.symm.trans (htext ▸ hb.color_eq))
  rw [ha.format_eq, hb.format_eq, hcolor]

end Record

namespace Detection

open Token (ReadsColors)

variable {s : Snapshot} {read : Recogniser (List Char)} {formats : List Format} {record : Record}

theorem isLiteral_of_mem_literals (hmem : record ∈ literals read s) : record.IsLiteral := by
  obtain ⟨hit, -, hrecord⟩ := List.mem_filterMap.mp hmem
  obtain ⟨color, hcolor, rfl⟩ := Option.map_eq_some_iff.mp hrecord
  refine ⟨?_, rfl, rfl⟩
  rw [Color.ofText?, Snapshot.record, String.toList_ofList]
  exact hcolor

/-- The passes behind those for literals mark every record. -/
theorem mark_ne_of_mem_pass {pass : Snapshot → Traced (List Record)} (hpass : pass ∈ passes.drop 3)
    (hmem : record ∈ (pass s).value) : record.mark ≠ {} := by
  simp only [passes, List.drop_succ_cons, List.drop_zero, List.mem_cons, List.not_mem_nil, or_false] at hpass
  rcases hpass with rfl | rfl | rfl | rfl | rfl
  · obtain ⟨hit, -, color, -, rfl⟩ := mem_references_iff.mp hmem
    simp [Snapshot.record]
  · obtain ⟨hit, -, hrecord⟩ := mem_recordsOf hmem
    obtain ⟨color, -, rfl⟩ := Option.map_eq_some_iff.mp hrecord
    simp [Snapshot.record]
  · obtain ⟨hit, -, hrecord⟩ := mem_recordsOf hmem
    obtain ⟨color, -, rfl⟩ := Option.map_eq_some_iff.mp hrecord
    simp [Snapshot.record]
  · obtain ⟨_, -, _, -, _, _, color, -, -, rfl⟩ := mem_classNames.mp hmem
    simp [Snapshot.record]
  · obtain ⟨_, -, _, color, -, rfl⟩ := mem_declarations hmem
    simp [Snapshot.record]

theorem format_of_mem_function (hmem : record ∈ literals Token.function? s) :
    record.format ∈ [.rgb, .rgba, .hsl, .hsla] := by
  obtain ⟨hit, hhit, hrecord⟩ := List.mem_filterMap.mp hmem
  obtain ⟨color, hcolor, rfl⟩ := Option.map_eq_some_iff.mp hrecord
  obtain ⟨before, after, hread⟩ := exists_of_mem_hits hhit
  exact Token.written_of_function? hread hcolor

section Literals

variable (hread : ReadsColors read formats)

include hread

theorem isLiteral_and_format_of_mem_literals (hmem : record ∈ literals read s) :
    record.IsLiteral ∧ record.format ∈ formats := by
  refine ⟨isLiteral_of_mem_literals hmem, ?_⟩
  obtain ⟨hit, hhit, hrecord⟩ := List.mem_filterMap.mp hmem
  obtain ⟨color, hcolor, rfl⟩ := Option.map_eq_some_iff.mp hrecord
  obtain ⟨before, after, hhit⟩ := exists_of_mem_hits hhit
  obtain ⟨color', hcolor', hformat⟩ := hread.exists_color hhit
  obtain rfl := Option.some.inj (hcolor.symm.trans hcolor')
  exact hformat

/-- A token is all of the text between its ends. -/
theorem bounds_of_mem_hits {cs : List Char} {hit : Hit (List Char)} (hmem : hit ∈ hits read cs) :
    hit.start < hit.stop ∧ hit.stop = hit.start + hit.value.length ∧ hit.stop ≤ cs.length := by
  obtain ⟨after, hhit, hstop⟩ := read_of_mem_hits hmem
  obtain ⟨c, hc, -⟩ := hread.exists_color hhit
  have hpos := List.length_pos_iff.mpr (Color.ne_nil_of_ofChars? hc)
  have hlength := congrArg List.length (hread.append_eq hhit)
  rw [List.length_append] at hlength
  rw [List.length_drop] at hlength hstop
  omega

variable (hs : s.IsOfText)

include hs

theorem shows_record {hit : Hit (List Char)} (hmem : hit ∈ hits read s.text) {color : Color Float}
    (hcolor : Color.ofChars? hit.value = some color) :
    (s.record hit.start hit.value color {}).Shows s.text hit := by
  refine ⟨⟨?_, rfl, rfl⟩, rfl, ?_⟩
  · rw [Color.ofText?, Snapshot.record, String.toList_ofList]
    exact hcolor
  · rw [Snapshot.record, hs.lines_eq, (bounds_of_mem_hits hread hmem).2.1, Int.natCast_add]

/-- Every token has its record, and every record its token, in their order. -/
theorem forall₂_literals :
    List.Forall₂ (fun hit record => record.Shows s.text hit ∧ record.format ∈ formats)
      (hits read s.text) (literals read s) := by
  refine forall₂_filterMap fun hit hmem => ?_
  obtain ⟨before, after, hhit⟩ := exists_of_mem_hits hmem
  obtain ⟨color, hcolor, hformat⟩ := hread.exists_color hhit
  exact ⟨s.record hit.start hit.value color {}, by rw [hcolor, Option.map_some],
    shows_record hread hs hmem hcolor, hformat⟩

theorem fits_of_mem_literals (hmem : record ∈ literals read s) : record.Fits s.text := by
  refine fits_literals hs (fun hhit => ?_) hmem
  obtain ⟨c, hc, -⟩ := hread.exists_color hhit
  exact ⟨Color.ne_nil_of_ofChars? hc, hread.append_eq hhit ▸ List.prefix_append _ _⟩

/-- The records stand in the text one after the other. -/
theorem pairwise_literals : (literals read s).Pairwise fun a b => a.stop s.text ≤ b.start s.text := by
  rw [literals, List.pairwise_filterMap]
  refine List.Pairwise.imp_of_mem (fun {hit hit'} hmem hmem' hle a ha b hb => ?_) (pairwise_hits read s.text)
  obtain ⟨color, hcolor, rfl⟩ := Option.map_eq_some_iff.mp ha
  obtain ⟨color', hcolor', rfl⟩ := Option.map_eq_some_iff.mp hb
  obtain ⟨-, -, hbound⟩ := bounds_of_mem_hits hread hmem
  obtain ⟨hlt', -, hbound'⟩ := bounds_of_mem_hits hread hmem'
  rw [(shows_record hread hs hmem hcolor).stop_eq hbound,
    (shows_record hread hs hmem' hcolor').start_eq (by omega)]
  exact Int.ofNat_le.mpr hle

theorem nodup_ranges_literals : ((literals read s).map (·.range)).Nodup := by
  rw [List.Nodup, List.pairwise_map]
  refine List.Pairwise.imp_of_mem (fun {a b} hmem hmem' hle hrange => ?_) (pairwise_literals hread hs)
  have hbounds := (fits_of_mem_literals hread hs hmem).bounds
  have hstart : a.start s.text = b.start s.text := by rw [Record.start, hrange, Record.start]
  omega

end Literals

/-- Records as they are put together, each with its range. -/
def ranged (records : List Record) : List (Range × Record) :=
  records.map fun record => (record.range, record)

theorem map_snd_ranged (records : List Record) : (ranged records).map (·.2) = records := by
  rw [ranged, List.map_map]
  exact List.map_id records

theorem map_fst_ranged (records : List Record) : (ranged records).map (·.1) = records.map (·.range) := by
  rw [ranged, List.map_map]
  rfl

theorem flatten_candidates (s : Snapshot) : (candidates s).flatten =
    ranged (literals Token.hex? s) ++ (ranged (literals Token.function? s) ++
      (ranged (literals Token.compact? s) ++
        ((passes.drop 3).map fun pass => ranged (pass s).value).flatten)) :=
  rfl

/-- No compact triple has the place of another literal. -/
theorem range_notMem_of_triple (hs : s.IsOfText) {entry : Range × Record}
    (hentry : entry ∈ ranged (literals Token.compact? s)) :
    entry.1 ∉ (ranged (literals Token.hex? s) ++ ranged (literals Token.function? s)).map (·.1) := by
  obtain ⟨record, hrecord, rfl⟩ := List.mem_map.mp hentry
  obtain ⟨hliteral, hformat⟩ := isLiteral_and_format_of_mem_literals Token.readsColors_compact hrecord
  have hfits := fits_of_mem_literals Token.readsColors_compact hs hrecord
  rw [List.mem_singleton] at hformat
  have hne {other : Record} (hother : other.IsLiteral) (hfits' : other.Fits s.text)
      (hformat' : other.format ≠ .compact) : other.range ≠ record.range := fun hrange =>
    hformat' ((hother.format_eq_of_range_eq hliteral hfits' hfits hrange).trans hformat)
  rw [List.map_append, map_fst_ranged, map_fst_ranged, List.mem_append, List.mem_map, List.mem_map]
  rintro (⟨other, hother, hrange⟩ | ⟨other, hother, hrange⟩)
  · obtain ⟨hliteral', hformat'⟩ := isLiteral_and_format_of_mem_literals Token.readsColors_hex hother
    refine hne hliteral' (fits_of_mem_literals Token.readsColors_hex hs hother) (fun heq => ?_) hrange
    rw [heq] at hformat'
    exact absurd hformat' (by decide)
  · have hformat' := format_of_mem_function hother
    refine hne (isLiteral_of_mem_literals hother) (fits_literals hs Token.begins_of_function? hother)
      (fun heq => ?_) hrange
    rw [heq] at hformat'
    exact absurd hformat' (by decide)

/-- The records of hexadecimal digits and of compact triples are all kept: the former come first, and the
latter behind what is kept of the calls. -/
theorem detect_eq_append (r : Registry) (source text : String) :
    let s := (Snapshot.take r source text.toList).value
    ∃ calls others, (detect r source text).value =
        literals Token.hex? s ++ (calls ++ (literals Token.compact? s ++ others)) ∧
      (∀ record ∈ calls, record.format ∈ [.rgb, .rgba, .hsl, .hsla]) ∧
      ∀ record ∈ others, record.mark ≠ {} := by
  intro s
  have hs : s.IsOfText := isOfText_take r source text.toList
  -- The hexadecimal literals are before everything, the triples behind other literals.
  obtain ⟨calls, hcalls, hfirst⟩ := Record.exists_firstOfEach_append [] (ranged (literals Token.function? s))
    (map_fst_ranged (literals Token.hex? s) ▸ nodup_ranges_literals Token.readsColors_hex hs)
    fun _ _ => List.not_mem_nil
  obtain ⟨others, hothers, hmerge⟩ := Record.exists_firstOfEach_append
    (ranged (literals Token.hex? s) ++ ranged (literals Token.function? s))
    ((passes.drop 3).map fun pass => ranged (pass s).value).flatten
    (map_fst_ranged (literals Token.compact? s) ▸ nodup_ranges_literals Token.readsColors_compact hs)
    fun entry hentry => range_notMem_of_triple hs hentry
  have hkept : Record.firstOfEach [] (ranged (literals Token.hex? s) ++ ranged (literals Token.function? s)) =
      ranged (literals Token.hex? s) ++ calls := hfirst
  refine ⟨calls.map (·.2), others.map (·.2), ?_, fun record hmem => ?_, fun record hmem => ?_⟩
  · rw [value_detect, Record.merge, flatten_candidates, ← List.append_assoc, hmerge, hkept]
    simp only [List.map_append, List.append_assoc, map_snd_ranged]
  · obtain ⟨entry, hentry, rfl⟩ := List.mem_map.mp hmem
    obtain ⟨record, hrecord, rfl⟩ := List.mem_map.mp (hcalls.subset hentry)
    exact format_of_mem_function hrecord
  · obtain ⟨entry, hentry, rfl⟩ := List.mem_map.mp hmem
    obtain ⟨found, hfound, hentry⟩ := List.mem_flatten.mp (hothers.subset hentry)
    obtain ⟨pass, hpass, rfl⟩ := List.mem_map.mp hfound
    obtain ⟨record, hrecord, rfl⟩ := List.mem_map.mp hentry
    exact mark_ne_of_mem_pass hpass hrecord

/-- The tokens of hexadecimal digits and of compact triples that are in a text are the literals of those
formats that are found in it: one record for each token, in their order, and the hexadecimal ones before all
else. -/
theorem detect_literals (r : Registry) (source text : String) :
    let found := (detect r source text).value
    let hexes := found.filter (Record.isLiteralIn [.hex, .hexAlpha])
    let triples := found.filter (Record.isLiteralIn [.compact])
    List.Forall₂ (fun hit record => record.Shows text.toList hit ∧ record.format ∈ [.hex, .hexAlpha])
        (hits Token.hex? text.toList) hexes ∧
      List.Forall₂ (fun hit record => record.Shows text.toList hit ∧ record.format ∈ [.compact])
        (hits Token.compact? text.toList) triples ∧
      hexes <+: found ∧
      hexes.Pairwise (fun a b => a.stop text.toList ≤ b.start text.toList) ∧
      triples.Pairwise (fun a b => a.stop text.toList ≤ b.start text.toList) := by
  intro found hexes triples
  let s := (Snapshot.take r source text.toList).value
  have hs : s.IsOfText := isOfText_take r source text.toList
  obtain ⟨calls, others, hfound, hcalls, hothers⟩ := detect_eq_append r source text
  have hhex := fun record (hmem : record ∈ literals Token.hex? s) =>
    isLiteral_and_format_of_mem_literals Token.readsColors_hex hmem
  have htriple := fun record (hmem : record ∈ literals Token.compact? s) =>
    isLiteral_and_format_of_mem_literals Token.readsColors_compact hmem
  have hmarked (formats : List Format) : others.filter (Record.isLiteralIn formats) = [] :=
    Record.filter_isLiteralIn_eq_nil fun record hmem hmark => absurd hmark (hothers record hmem)
  have hcalled {formats : List Format} (hformats : ∀ f ∈ [.rgb, .rgba, .hsl, .hsla], f ∉ formats) :
      calls.filter (Record.isLiteralIn formats) = [] :=
    Record.filter_isLiteralIn_eq_nil fun record hmem _ => hformats _ (hcalls record hmem)
  have hhexes : hexes = literals Token.hex? s := by
    have hnone : (literals Token.compact? s).filter (Record.isLiteralIn [.hex, .hexAlpha]) = [] := by
      refine Record.filter_isLiteralIn_eq_nil fun record hmem _ => ?_
      rw [List.mem_singleton.mp (htriple record hmem).2]
      decide
    calc hexes = (literals Token.hex? s).filter (Record.isLiteralIn [.hex, .hexAlpha]) := by
          change List.filter _ (detect r source text).value = _
          rw [hfound, List.filter_append, List.filter_append, List.filter_append, hnone, hmarked,
            hcalled (by decide), List.append_nil, List.append_nil, List.append_nil]
      _ = literals Token.hex? s := Record.filter_isLiteralIn_eq_self hhex
  have htriples : triples = literals Token.compact? s := by
    have hnone : (literals Token.hex? s).filter (Record.isLiteralIn [.compact]) = [] := by
      refine Record.filter_isLiteralIn_eq_nil fun record hmem _ hformat => ?_
      have hformat' := (hhex record hmem).2
      rw [List.mem_singleton.mp hformat] at hformat'
      exact absurd hformat' (by decide)
    calc triples = (literals Token.compact? s).filter (Record.isLiteralIn [.compact]) := by
          change List.filter _ (detect r source text).value = _
          rw [hfound, List.filter_append, List.filter_append, List.filter_append, hnone, hmarked,
            hcalled (by decide), List.append_nil, List.nil_append, List.nil_append]
      _ = literals Token.compact? s := Record.filter_isLiteralIn_eq_self htriple
  rw [hhexes, htriples]
  exact ⟨forall₂_literals Token.readsColors_hex hs, forall₂_literals Token.readsColors_compact hs,
    ⟨_, hfound.symm⟩, pairwise_literals Token.readsColors_hex hs,
    pairwise_literals Token.readsColors_compact hs⟩

end Detection

end Swatch
