import Swatch.Detection.Record
import Swatch.Detection.Token
import Swatch.Stylesheet.Sheet

/-!
Detection of colours in a text. Eight passes look for one kind of token each; a range that an
earlier pass claimed is not reported again.
-/

namespace Swatch.Detection

open Text

def inlineSource : String := "<inline>"

/-- What every pass goes by: the text, its lines, its own declarations with their offsets, and what
names stand for. -/
structure Snapshot where
  text : List Char
  lines : LineIndex
  declarations : List (Nat × Declaration)
  scope : Scope

def Snapshot.take (r : Registry) (source : String) (text : List Char) : Traced Snapshot := do
  let lines := LineIndex.ofChars text
  let declarations ← Sheet.variablesAt r source text lines
  return ⟨text, lines, declarations, ⟨Sheet.byName (declarations.map (·.2)), r⟩⟩

def Snapshot.record (s : Snapshot) (start : Nat) (token : List Char) (color : Color Float)
    (mark : Mark) : Record where
  range := s.lines.range start (start + token.length)
  text := String.ofList token
  css := color.css
  color := color
  format := color.written
  mark := mark

def literals (read : Recogniser (List Char)) (s : Snapshot) : List Record :=
  (hits read s.text).filterMap fun hit =>
    (Color.ofChars? hit.value).map fun color => s.record hit.start hit.value color {}

def colorOf? (s : Scope) (name : String) (wrap : String → String) :
    Traced (Option (Color Float)) :=
  match s.preferred? name with
  | none => pure none
  | some d => do
    let value ← Resolution.resolveDeclaration s d
    return Color.ofText? (wrap value)

def recordsOf {α : Type} (read : Recogniser α) (s : Snapshot)
    (record? : Hit α → Traced (Option Record)) : Traced (List Record) := do
  let found ← (hits read s.text).mapM record?
  return found.filterMap id

def references (s : Snapshot) : Traced (List Record) :=
  recordsOf Token.reference? s fun hit => do
    let name := String.ofList hit.value.1
    let color? ← colorOf? s.scope name id
    return color?.map fun color => s.record hit.start hit.value.2 color { property := name }

def wrappedReferences (s : Snapshot) : Traced (List Record) :=
  recordsOf Token.wrapped? s fun hit => do
    let name := String.ofList hit.value.name
    let call (value : String) := String.ofList hit.value.function ++ "(" ++ value ++ ")"
    let color? ← colorOf? s.scope name call
    return color?.map fun color =>
      s.record hit.start hit.value.spelling color { property := name, isWrapped := true }

def utilityClasses (s : Snapshot) : Traced (List Record) :=
  recordsOf Token.utility? s fun hit => do
    let name := String.ofList ('-' :: '-' :: hit.value.1)
    let color? ← colorOf? s.scope name id
    return color?.map fun color =>
      s.record hit.start hit.value.2 color
        { property := name, utilityClass := String.ofList hit.value.2 }

def classValue (r : Registry) (c : ClassColor) : Traced String :=
  match c.resolved with
  | some value =>
    if value.isEmpty then Resolution.resolveText (Scope.ofRegistry r) [] c.value else pure value
  | none => Resolution.resolveText (Scope.ofRegistry r) [] c.value

def classNames (s : Snapshot) : Traced (List Record) := do
  let found ← (hits Token.classAttribute? s.text).mapM fun hit =>
    (hits Token.word? hit.value.2).mapM fun word => do
      let name := String.ofList word.value
      match s.scope.registry.classColors? name with
      | some (c :: _) =>
        let value ← classValue s.scope.registry c
        return (Color.ofText? value).map fun color =>
          s.record (hit.start + hit.value.1 + word.start) word.value color { className := name }
      | _ => return none
  return found.flatten.filterMap id

def declarations (s : Snapshot) : Traced (List Record) := do
  let found ← s.declarations.mapM fun (start, d) => do
    let value ← Resolution.resolveDeclaration (Scope.ofRegistry s.scope.registry) d
    return (Color.ofText? value).map fun color =>
      s.record start d.name.toList color { property := d.name, isDeclaration := true }
  return found.filterMap id

def passes : List (Snapshot → Traced (List Record)) :=
  [fun s => pure (literals Token.hex? s), fun s => pure (literals Token.function? s),
   fun s => pure (literals Token.compact? s), references, wrappedReferences, utilityClasses,
   classNames, declarations]

def detect (r : Registry) (source text : String) : Traced (List Record) := do
  let s ← Snapshot.take r source text.toList
  let found ← passes.mapM fun pass => pass s
  return (Record.merge (found.map fun records => records.map fun record =>
    (record.range, record))).map (·.2)

end Swatch.Detection
