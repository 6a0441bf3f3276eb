import Swatch.Text.Scan

/-!
Rules that set a colour for a class, found without a grammar of the language: a class selector, the
brace right after it, and the first colour property before a closing brace.
-/

namespace Swatch

open Text

/-- What a rule for a class sets: the property and its value, as they are written. -/
structure ClassRule where
  name : List Char
  property : String
  value : List Char
  deriving Repr, DecidableEq

namespace ClassRule

def properties : List String :=
  ["color", "background-color", "border-color", "background"]

/-- Reads a colon and a value up to a semicolon or a closing brace, with it. The value is not empty
and may be white space. -/
def value? (cs : List Char) : Option (List Char × List Char) :=
  match trimStart cs with
  | ':' :: rest =>
    let (value, after) := rest.span fun c => c != ';' && c != '\x7d'
    match after with
    | _ :: afterEnd => if value.isEmpty then none else some (trim value, afterEnd)
    | [] => none
  | _ => none

def property? (cs : List Char) : Option ((String × List Char) × List Char) :=
  properties.findSome? fun property => do
    let rest ← after? property cs
    let (value, after) ← value? rest
    return ((property, value), after)

def firstProperty? : (before : Option Char) → List Char →
    Option ((String × List Char) × List Char)
  | _, [] => none
  | before, c :: rest =>
    match if startsAfter isName before then property? (c :: rest) else none with
    | some found => some found
    | none => if c == '\x7d' then none else firstProperty? (some c) rest

def read? : Recogniser ClassRule := fun _ cs =>
  match cs with
  | '.' :: rest => do
    let (name, afterName) ← run? (fun c => c == '.' || isName c) rest
    match trimStart afterName with
    | '\x7b' :: body => do
      let ((property, value), after) ← firstProperty? (some '\x7b') body
      return (⟨name, property, value⟩, after)
    | _ => none
  | _ => none

end ClassRule

end Swatch
