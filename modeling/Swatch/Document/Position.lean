/-!
Places in a document: positions by line and character, and the ranges between two positions.
-/

namespace Swatch

/-- A line and a character in it, both counted from zero. -/
structure Position where
  line : Int
  character : Int
  deriving DecidableEq, Repr

namespace Position

def isUpTo (p q : Position) : Bool :=
  p.line < q.line || (p.line == q.line && p.character ≤ q.character)

end Position

structure Range where
  start : Position
  stop : Position
  deriving DecidableEq, Repr

namespace Range

def key (r : Range) : String :=
  toString r.start.line ++ ":" ++ toString r.start.character ++ "-" ++
    toString r.stop.line ++ ":" ++ toString r.stop.character

def contains (r : Range) (p : Position) : Bool :=
  r.start.isUpTo p && p.isUpTo r.stop

end Range

end Swatch
