import Swatch.Color.Basic
import Swatch.Document.Position

/-!
Records of colours found in a document, what each of them refers to, and how often.
-/

namespace Swatch

/-- How a token stands for its colour; a token without any mark is the colour itself. -/
structure Mark where
  property : Option String := none
  isWrapped : Bool := false
  utilityClass : Option String := none
  className : Option String := none
  isDeclaration : Bool := false
  deriving DecidableEq, Repr

/-- A colour found in a document: where, by which text, its canonical text and how it came about. -/
structure Record where
  range : Range
  text : String
  css : String
  color : Color Float
  format : Format
  mark : Mark
  deriving Repr

namespace Record

/-- What a record refers to: a custom property, a utility class, a class or a colour as such. -/
def identifierOf (mark : Mark) (css : String) : String :=
  match mark.property, mark.utilityClass, mark.className with
  | some name, _, _ => "var:" ++ name
  | none, some name, _ => "tailwind:" ++ name
  | none, none, some name => "class:" ++ name
  | none, none, none => "color:" ++ css

def identifier (r : Record) : String :=
  identifierOf r.mark r.css

def usage (identifiers : List String) (identifier : String) : Nat :=
  identifiers.count identifier

/-- The entries whose range occurs neither among the keys seen nor in an earlier entry. -/
def firstOfEach {α : Type} : (seen : List String) → List (Range × α) → List (Range × α)
  | _, [] => []
  | seen, entry :: rest =>
    let key := entry.1.key
    if seen.contains key then firstOfEach seen rest
    else entry :: firstOfEach (key :: seen) rest

def merge {α : Type} (passes : List (List (Range × α))) : List (Range × α) :=
  firstOfEach [] passes.flatten

end Record

end Swatch
