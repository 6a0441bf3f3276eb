import Swatch.Color.Reader
import Swatch.Color.Writer
import Swatch.Document.LineIndex
import Swatch.Stylesheet.ClassRule
import Swatch.Stylesheet.Resolution
import Swatch.Stylesheet.Selector

/-!
Stylesheets as a whole: the custom properties and class colours that a text declares, with selector
and resolved value, and their way into a registry.
-/

namespace Swatch

structure Sheet where
  declarations : List Declaration
  classes : List ClassColor
  deriving Repr

namespace Sheet

def byName (ds : List Declaration) : Keyed String (List Declaration) :=
  let grouped : Keyed String (List Declaration) :=
    ds.foldl (fun t d => Keyed.update t d.name fun earlier => earlier.getD [] ++ [d]) ∅
  grouped.map fun ds => ds.mergeSort fun a b => a.context.specificity ≤ b.context.specificity

/-- The declaration that a custom property in a text makes, its value not yet resolved. -/
def declaration (source : String) (text : List Char) (lines : LineIndex) (p : CustomProperty) :
    Declaration :=
  let selector := Selector.enclosing text p.start
  { name := p.name
    value := p.value
    source := source
    line := (lines.positionAt p.start).line
    selector := selector
    context := Selector.context selector
    resolved := none }

def resolved (s : Scope) (d : Declaration) : Traced Declaration := do
  let value ← Resolution.resolveText s [d.name] d.value
  return { d with resolved := some value }

def variablesAt (r : Registry) (source : String) (text : List Char) (lines : LineIndex) :
    Traced (List (Nat × Declaration)) :=
  let raw := (CustomProperty.all text).map fun p => (p.start, declaration source text lines p)
  let scope : Scope := ⟨byName (raw.map (·.2)), r⟩
  raw.mapM fun (start, d) => do
    return (start, ← resolved scope d)

/-- The colour that a rule sets for its class, if its value is a colour once resolved. -/
def classColor? (s : Scope) (source : String) (lines : LineIndex) (hit : Text.Hit ClassRule) :
    Traced (Option ClassColor) := do
  let rule := hit.value
  let value ←
    if Selector.occurs "var(" rule.value then
      (Resolution.resolve s [] rule.value : Traced (List Char))
    else pure rule.value
  match (Color.ofChars? value : Option (Color Float)) with
  | none => return none
  | some color =>
    let name := String.ofList rule.name
    return some
      { name := name
        property := rule.property
        value := String.ofList rule.value
        source := source
        line := (lines.positionAt hit.start).line
        selector := "." ++ name
        resolved := some color.css }

def classColors (s : Scope) (source : String) (text : List Char) (lines : LineIndex) :
    Traced (List ClassColor) := do
  let found ← (Text.hits ClassRule.read? text).mapM (classColor? s source lines)
  return found.filterMap id

/-- Reads a stylesheet, with the declarations of a registry in reach of its references. -/
def read (r : Registry) (source text : String) : Traced Sheet := do
  let cs := text.toList
  let lines := LineIndex.ofChars cs
  let located ← variablesAt r source cs lines
  let declarations := located.map (·.2)
  let classes ← classColors ⟨byName declarations, r⟩ source cs lines
  return ⟨declarations, classes⟩

end Sheet

namespace Registry

def index (r : Registry) (source text : String) : Traced (Sheet × Registry) := do
  let sheet ← Sheet.read r source text
  return (sheet, r.replace source sheet.declarations sheet.classes)

end Registry

end Swatch
