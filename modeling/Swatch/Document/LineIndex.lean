import Swatch.Document.Position

/-!
Conversion between offsets in a text and positions by line and character.
-/

namespace Swatch

/-- Where the lines of a text start, and how long it is. -/
structure LineIndex where
  starts : List Nat
  length : Nat
  deriving Repr

namespace LineIndex

def startsAfterNewlines : (offset : Nat) → List Char → List Nat
  | _, [] => []
  | offset, c :: rest =>
    if c == '\n' then (offset + 1) :: startsAfterNewlines (offset + 1) rest
    else startsAfterNewlines (offset + 1) rest

def ofChars (cs : List Char) : LineIndex :=
  ⟨0 :: startsAfterNewlines 0 cs, cs.length⟩

def positionAt (lines : LineIndex) (offset : Int) : Position :=
  let o := min offset.toNat lines.length
  let upTo := lines.starts.takeWhile (· ≤ o)
  ⟨upTo.length - 1, o - upTo.getLastD 0⟩

/-- The offset of a position: at most the end of the text, and the start of the first line where
the line is negative. -/
def offsetAt (lines : LineIndex) (p : Position) : Int :=
  match lines.starts[p.line.toNat]? with
  | some start => min (start + p.character) lines.length
  | none => lines.length

def range (lines : LineIndex) (start stop : Int) : Range :=
  ⟨lines.positionAt start, lines.positionAt stop⟩

end LineIndex

end Swatch
