import Swatch.Detection.Detect
import Swatch.Document.Basic
import Swatch.Stylesheet.Index

/-!
What a service knows: the declarations of the stylesheets, and which version of each document among
them was indexed last.
-/

namespace Swatch

/-- The registry, and the versions of the documents that are indexed in it. -/
structure Library where
  registry : Registry
  indexed : Keyed String Int

namespace Library

def empty : Library := ⟨∅, ∅⟩

instance : EmptyCollection Library := ⟨empty⟩

instance : Inhabited Library := ⟨empty⟩

def lacks (l : Library) (d : Document) : Bool :=
  d.isStylesheet && l.indexed.get? d.uri ≠ some d.version

def index (l : Library) (d : Document) : Log.Telling Library := do
  let (_, registry) ← l.registry.indexTold d.uri d.text
  return ⟨registry, l.indexed.set d.uri d.version⟩

def remove (l : Library) (uri : String) : Library :=
  ⟨l.registry.removeSource uri, l.indexed.erase uri⟩

def detect (l : Library) (d : Document) : Log.Telling (List Record) := do
  let records ← (Detection.detect l.registry d.uri d.text).told
  Log.tell (.colorsDetected d.uri records.length)
  return records

def distinct (colors : List (Color Float)) : List (Color Float) :=
  (colors.foldl (fun seen c =>
    if seen.any fun other => other.css = c.css then seen else c :: seen) []).reverse

/-- The distinct colours that custom properties stand for, in the order of their names. -/
def palette (l : Library) : Log.Telling (List (Color Float)) := do
  let scope := Scope.ofRegistry l.registry
  let names := l.registry.declarations.keys.mergeSort fun a b => decide (a ≤ b)
  let found ← names.mapM fun name =>
    match scope.preferred? name with
    | some d => do
      let value ← (Resolution.resolveDeclaration scope d).told
      return (Color.ofText? value : Option (Color Float))
    | none => return none
  return distinct (found.filterMap id)

end Library

end Swatch
