import Swatch.Number.Scalar
import Swatch.Color.Format

/-!
Colours: red, green, blue and opacity as fractions, with the formats to offer them in.
-/

namespace Swatch

/-- A colour. The channels run from zero to one where the colour was read from text; `formats`
begins with the format it was written in. -/
structure Color (α : Type) where
  red : α
  green : α
  blue : α
  alpha : α
  formats : List Format := Format.fallbacks
  deriving Repr

namespace Color

variable {α : Type} [Scalar α]

def written (c : Color α) : Format :=
  c.formats.headD .rgba

def channels (c : Color α) : Except ArithmeticError (Int × Int × Int) := do
  let red ← Scalar.nearest (c.red * 255)
  let green ← Scalar.nearest (c.green * 255)
  let blue ← Scalar.nearest (c.blue * 255)
  return (red, green, blue)

def ofChannels (rgb : Int × Int × Int) (alpha : α) (written : Format) : Color α where
  red := Scalar.ofInt rgb.1 / 255
  green := Scalar.ofInt rgb.2.1 / 255
  blue := Scalar.ofInt rgb.2.2 / 255
  alpha := alpha
  formats := written.priority

end Color

end Swatch
