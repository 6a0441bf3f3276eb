import Swatch.Text.Word
import Swatch.Text.Blank

/-!
Scanning a text for tokens. A recogniser reads one token at one place; `hits` goes through a text
from left to right and collects the tokens that do not overlap.
-/

namespace Swatch.Text

/-- Reads a token at a place of a text, given the character before the place and the text from the
place on. Answers what was read and the text after it. -/
abbrev Recogniser (α : Type) := Option Char → List Char → Option (α × List Char)

/-- A token found in a text, from offset `start` up to but not including `stop`. -/
structure Hit (α : Type) where
  start : Nat
  stop : Nat
  value : α
  deriving Repr

/-- Scans the rest of a text: `before` is the character in front of it, `offset` its place in the
text, and `skip` counts the characters that belong to the token read last. -/
def hitsFrom {α : Type} (read : Recogniser α) :
    (before : Option Char) → (offset skip : Nat) → List Char → List (Hit α)
  | _, _, _, [] => []
  | _, offset, skip + 1, c :: rest => hitsFrom read (some c) (offset + 1) skip rest
  | before, offset, 0, c :: rest =>
    match read before (c :: rest) with
    | some (value, after) =>
      let length := (c :: rest).length - after.length
      ⟨offset, offset + length, value⟩ :: hitsFrom read (some c) (offset + 1) (length - 1) rest
    | none => hitsFrom read (some c) (offset + 1) 0 rest

/-- The tokens of a text, from left to right, each starting where or after the one before it ends. -/
def hits {α : Type} (read : Recogniser α) (cs : List Char) : List (Hit α) :=
  hitsFrom read none 0 0 cs

def after? (beginning : String) (cs : List Char) : Option (List Char) :=
  beginning.toList.isPrefixOf? cs

/-- Some spelling of a small letter: the letter, its capital, or one of the two signs that fold to
an ASCII letter, the long s and the kelvin sign. -/
def isSpellingOf (letter c : Char) : Bool :=
  c.toLower == letter || (letter == 's' && c == 'ſ') || (letter == 'k' && c == 'K')

def afterFolded? : List Char → List Char → Option (List Char)
  | [], cs => some cs
  | _ :: _, [] => none
  | letter :: letters, c :: cs =>
    if isSpellingOf letter c then afterFolded? letters cs else none

def run? (p : Char → Bool) (cs : List Char) : Option (List Char × List Char) :=
  match cs.span p with
  | ([], _) => none
  | (taken, rest) => some (taken, rest)

def startsAfter (p : Char → Bool) (before : Option Char) : Bool :=
  match before with
  | some c => !p c
  | none => true

end Swatch.Text
