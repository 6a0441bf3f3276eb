import Swatch.Color.Contrast
import Swatch.Color.Writer
import Swatch.Json.Value

/-!
Colours, levels of legibility and conversions as values of the interchange format.
-/

namespace Swatch

/-- A colour as a value: its channels as they are and in whole steps, its canonical text, and the
formats that it is offered in. -/
def Color.toJson (c : Color Float) : Except ArithmeticError Json := do
  let (red, green, blue) ← c.channels
  return .obj
    [("red", .float c.red), ("green", .float c.green), ("blue", .float c.blue),
     ("alpha", .float c.alpha), ("css", .str c.css),
     ("rgb255", .arr [.int red, .int green, .int blue]),
     ("format_priority", .arr (c.formats.map fun f => .str f.name)),
     ("original_format", .str c.written.name)]

def Contrast.Level.members (l : Level) : List (String × Json) :=
  [("level", .str l.name), ("passes", .arr (l.passes.map .str))]

def Conversion.toJson (cs : List Conversion) : Json :=
  .obj (cs.map fun c => (c.format.name, .str c.text))

end Swatch
