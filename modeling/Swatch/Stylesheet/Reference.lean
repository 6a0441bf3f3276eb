import Swatch.Stylesheet.CustomProperty

/-!
References to custom properties, and the parts of a value: the references in it and the characters
between them.
-/

namespace Swatch

open Text

namespace Reference

/-- Reads what follows the opening parenthesis of a reference, up to and with the closing one. -/
def body? (cs : List Char) : Option (List Char × List Char) :=
  match CustomProperty.name? (trimStart cs) with
  | some (name, rest) =>
    match trimStart rest with
    | ')' :: after => some (name, after)
    | _ => none
  | none => none

def read? : Recogniser (List Char) := fun _ cs =>
  match after? "var(" cs with
  | some rest => body? rest
  | none => none

end Reference

/-- A part of a value: a character as it stands, or a reference with its spelling. -/
inductive Segment where
  | literal (c : Char)
  | reference (name spelling : List Char)
  deriving Repr, DecidableEq

def Segment.text : Segment → List Char
  | .literal c => [c]
  | .reference _ spelling => spelling

namespace Reference

/-- Takes the rest of a value apart; `skip` counts the characters that belong to the reference read
last. -/
def segmentsFrom : (skip : Nat) → List Char → List Segment
  | _, [] => []
  | skip + 1, _ :: rest => segmentsFrom skip rest
  | 0, c :: rest =>
    match read? none (c :: rest) with
    | some (name, after) =>
      let length := (c :: rest).length - after.length
      .reference name ((c :: rest).take length) :: segmentsFrom (length - 1) rest
    | none => .literal c :: segmentsFrom 0 rest

def segments (value : List Char) : List Segment :=
  segmentsFrom 0 value

end Reference

end Swatch
