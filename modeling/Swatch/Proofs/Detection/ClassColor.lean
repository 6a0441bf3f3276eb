import Swatch.Proofs.Color.Canonical
import Swatch.Proofs.Detection.Shadowing

/-!
The colour of a class from its rule to the words that name the class. What is kept of it is its
canonical text, which is read again wherever the class stands in a document.
Main statement: a canonical text is read as a colour with the same channels and the same canonical
text; so a class is shown with the canonical text of the colour that its rule was written with.
-/

namespace Swatch

open Text

namespace Detection

/-- A class is found wherever it stands in a document, and always with one canonical text. -/
structure Shows (r : Registry) (name css : String) : Prop where
  exists_record : ∀ source (text : String),
    ∀ hit ∈ hits Token.classAttribute? text.toList, ∀ word ∈ hits Token.word? hit.value.2,
      String.ofList word.value = name →
        let s := (Snapshot.take r source text.toList).value
        ∃ color : Color Float, color.css = css ∧
          s.record (hit.start + hit.value.1 + word.start) word.value color { className := name } ∈
            (classNames s).value
  css_eq : ∀ source text, ∀ record ∈ (detect r source text).value,
    record.mark.className = some name → record.css = css

variable {r : Registry} {source text : String} {record : Record}

/-- Only the pass for class names marks a record with a class. -/
theorem mem_classNames_of_mem_pass {s : Snapshot} {pass : Snapshot → Traced (List Record)}
    {name : String} (hpass : pass ∈ passes) (hmem : record ∈ (pass s).value)
    (hmark : record.mark.className = some name) : record ∈ (classNames s).value := by
  obtain hreference | hclass | ⟨hother, -⟩ := mark_of_mem_pass hpass hmem
  · obtain ⟨_, -, color, -, rfl⟩ := mem_references_iff.mp hreference
    cases hmark
  · exact hclass
  · rw [hother] at hmark
    cases hmark

theorem mem_classNames_of_mem_detect {name : String} (hmem : record ∈ (detect r source text).value)
    (hmark : record.mark.className = some name) :
    record ∈ (classNames (Snapshot.take r source text.toList).value).value := by
  rw [value_detect] at hmem
  obtain ⟨entry, hentry, rfl⟩ := List.mem_map.mp hmem
  obtain ⟨found, hfound, hentry⟩ :=
    List.mem_flatten.mp ((Record.firstOfEach_sublist _ _).subset hentry)
  obtain ⟨pass, hpass, rfl⟩ := List.mem_map.mp hfound
  obtain ⟨record, hrecord, rfl⟩ := List.mem_map.mp hentry
  exact mem_classNames_of_mem_pass hpass hrecord hmark

/-- A class whose first colour is kept as the canonical text of a colour. -/
theorem shows_of_classColors? {c : ClassColor} {rest : List ClassColor} {color : Color Float}
    {name : String} (hclass : r.classColors? name = some (c :: rest)) (hcolor : color.IsFinite)
    (hcanonical : color.IsCanonical) (hresolved : c.resolved = some color.css) :
    Shows r name color.css := by
  obtain ⟨color', hread, hcss, -⟩ := hcanonical.reread
  have hvalue := classValue_of_resolved hresolved (Registry.css_ne_empty hcolor)
  refine ⟨fun source text hit hhit word hword hname => ?_, fun source text record hmem hmark => ?_⟩
  · subst hname
    refine ⟨color', Color.css_eq hcss, mem_classNames.mpr
      ⟨hit, hhit, word, hword, c, rest, color', hclass, ?_, rfl⟩⟩
    rw [hvalue]
    exact hread
  · obtain ⟨hit, hhit, word, hword, c', rest', color'', hclass', hread', rfl⟩ :=
      mem_classNames.mp (mem_classNames_of_mem_detect hmem hmark)
    obtain rfl : String.ofList word.value = name := Option.some.inj hmark
    obtain ⟨rfl, rfl⟩ := List.cons.inj (Option.some.inj (hclass'.symm.trans hclass))
    rw [hvalue] at hread'
    obtain rfl := Option.some.inj (hread'.symm.trans hread)
    exact Color.css_eq hcss

end Detection

/-- Over exact rationals as over doubles, a colour that is read from a text has a canonical text, which
is read as a colour with the same channels and the same canonical text. A colour of a class is the
canonical text of what its rule comes to; if it is the first of the class in a registry, the class is
found with that text in every document. -/
theorem isCanonical_of_ofText? :
    (∀ text (c : Color Rat), Color.ofText? text = some c → c.IsCanonical) ∧
      (∀ text (c : Color Float), Color.ofText? text = some c → c.IsCanonical) ∧
      ∀ r source text, ∀ k ∈ (Sheet.read r source text).value.classes, ∃ c : Color Float,
        Color.ofChars? (Sheet.settled ⟨Sheet.byName (Sheet.declared r source text), r⟩ k.value.toList) =
            some c ∧
          k.resolved = some c.css ∧
          ∀ r' rest, Registry.classColors? r' k.name = some (k :: rest) →
            Detection.Shows r' k.name c.css := by
  refine ⟨fun _ _ => Color.isCanonical_rat, fun _ _ => Color.isCanonical_float,
    fun r source text k hk => ?_⟩
  obtain ⟨c, hc, hresolved⟩ := Sheet.exists_color_of_mem_classes hk
  exact ⟨c, hc, hresolved, fun r' rest hclass => Detection.shows_of_classColors? hclass
    (Color.isFinite_of_ofChars? hc) (Color.isCanonical_float hc) hresolved⟩

/-- A rule with an opacity that is rounded to a full one. -/
def nearlyOpaque : String :=
  ".card\x7bcolor:rgba(255,0,0,0.999)\x7d"

def nearlyOpaqueCard : ClassColor where
  name := "card"
  property := "color"
  value := "rgba(255,0,0,0.999)"
  source := "page.css"
  line := 0
  selector := ".card"
  resolved := some "rgb(255, 0, 0)"

theorem isCanonical_of_ofText?_nearlyOpaque :
    (∃ c : Color Rat, Color.ofText? "rgba(255,0,0,0.999)" = some c ∧ c.css = "rgb(255, 0, 0)" ∧
        c.IsCanonical) ∧
      (∃ c : Color Float, Color.ofText? "rgba(255,0,0,0.999)" = some c ∧ c.css = "rgb(255, 0, 0)" ∧
        c.IsCanonical) ∧
      (Sheet.read ∅ "page.css" nearlyOpaque).value.classes = [nearlyOpaqueCard] ∧
      Detection.Shows (Registry.index ∅ "page.css" nearlyOpaque).value.2 "card" "rgb(255, 0, 0)" := by
  have hclasses : (Sheet.read ∅ "page.css" nearlyOpaque).value.classes = [nearlyOpaqueCard] := by
    decide +kernel
  obtain ⟨hrational, hdouble, hclass⟩ := isCanonical_of_ofText?
  refine ⟨?_, ?_, hclasses, ?_⟩
  · have hread := (Option.some_get (by decide +kernel :
      (Color.ofText? "rgba(255,0,0,0.999)" : Option (Color Rat)).isSome = true)).symm
    exact ⟨_, hread, by decide +kernel, hrational _ _ hread⟩
  · have hread := (Option.some_get (by decide +kernel :
      (Color.ofText? "rgba(255,0,0,0.999)" : Option (Color Float)).isSome = true)).symm
    exact ⟨_, hread, by decide +kernel, hdouble _ _ hread⟩
  · obtain ⟨c, -, hcss, hshows⟩ :=
      hclass ∅ "page.css" nearlyOpaque nearlyOpaqueCard (hclasses ▸ List.mem_singleton_self _)
    rw [← Option.some.inj hcss] at hshows
    exact hshows _ [] (by decide +kernel)

end Swatch
