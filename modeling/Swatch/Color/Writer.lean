import Swatch.Color.Basic
import Swatch.Color.Hsl

/-!
Writing colours: each format by itself, the canonical text, and the list of all that can express a
colour.
-/

namespace Swatch

/-- A number in hexadecimal digits, padded with zeros to two characters, sign included. -/
def hexByte (n : Int) : String :=
  let digits := Nat.toDigits 16 n.natAbs
  let padding := List.replicate ((if n < 0 then 1 else 2) - digits.length) '0'
  String.ofList ((if n < 0 then ['-'] else []) ++ padding ++ digits)

structure Conversion where
  format : Format
  text : String
  deriving DecidableEq, Repr

namespace Color

variable {α : Type} [Scalar α]

def channelsText (rgb : Int × Int × Int) : String :=
  toString rgb.1 ++ ", " ++ toString rgb.2.1 ++ ", " ++ toString rgb.2.2

def rgbText (rgb : Int × Int × Int) : String :=
  "rgb(" ++ channelsText rgb ++ ")"

def rgbaText (rgb : Int × Int × Int) (alpha : String) : String :=
  "rgba(" ++ channelsText rgb ++ ", " ++ alpha ++ ")"

/-- The canonical text: with opacity where it is below one after rounding to hundredths. -/
def css? (c : Color α) : Except ArithmeticError String := do
  let rgb ← c.channels
  let alpha ← Scalar.nearestHundredth c.alpha
  if alpha < 1 then
    return rgbaText rgb (← Scalar.text alpha)
  else
    return rgbText rgb

/-- The canonical text of a colour whose channels are numbers, as those read from text are. -/
def css (c : Color α) : String :=
  c.css?.toOption.getD ""

def hex (c : Color α) (withAlpha : Bool) : Except ArithmeticError String := do
  let (r, g, b) ← c.channels
  let base := "#" ++ hexByte r ++ hexByte g ++ hexByte b
  if withAlpha then
    return base ++ hexByte (← Scalar.nearest (c.alpha * 255))
  else
    return base

/-- A call of `rgb`, or of `rgba` where the colour is translucent or `forceAlpha` is set. -/
def rgb (c : Color α) (forceAlpha : Bool) : Except ArithmeticError String := do
  let channels ← c.channels
  let alpha ← Scalar.nearestHundredth c.alpha
  if !forceAlpha && alpha == 1 then
    return rgbText channels
  else
    return rgbaText channels (← Scalar.text alpha)

def componentText (x : α) : Except ArithmeticError String := do
  Scalar.text (← Scalar.nearestHundredth x)

def triple (c : Color α) : Except ArithmeticError String := do
  let x ← Hsl.ofRgb (c.red * 255) (c.green * 255) (c.blue * 255)
  let hue ← componentText x.hue
  let saturation ← componentText x.saturation
  let lightness ← componentText x.lightness
  return hue ++ " " ++ saturation ++ "% " ++ lightness ++ "%"

def alphaText (c : Color α) : String :=
  (Scalar.exact c.alpha).fixed 2

/-- A call of `hsl`, or of `hsla` where the colour is not opaque or `forceAlpha` is set. -/
def hsl (c : Color α) (forceAlpha : Bool) : Except ArithmeticError String := do
  let base ← c.triple
  if !forceAlpha && c.alpha == 1 then
    return "hsl(" ++ base ++ ")"
  else
    return "hsla(" ++ base ++ " / " ++ c.alphaText ++ ")"

def compact (c : Color α) : Except ArithmeticError String := do
  let base ← c.triple
  if c.alpha == 1 then return base else return base ++ " / " ++ c.alphaText

def write? (c : Color α) (format : Format) : Except ArithmeticError (Option String) :=
  if format.isOpaqueOnly && !(c.alpha == 1) then .ok none
  else
    some <$>
      match format with
      | .hex => c.hex false
      | .hexAlpha => c.hex true
      | .rgb => c.rgb false
      | .rgba => c.rgb true
      | .hsl => c.hsl false
      | .hsla => c.hsl true
      | .compact => c.compact

def addConversion (found : List Conversion) (conversion : Conversion) : List Conversion :=
  let key (s : String) := s.toList.map Char.toLower
  if found.any fun earlier => key earlier.text == key conversion.text then found
  else found ++ [conversion]

/-- The colour in every format that can express it, a preferred one first; without a preference,
`rgba` or `rgb` as the colour is translucent or not. -/
def conversions (c : Color α) (preferred : Option Format) :
    Except ArithmeticError (List Conversion) := do
  let first := preferred.getD (if c.alpha < 1 then .rgba else .rgb)
  let found ← first.priority.foldlM (fun found format => do
    match ← c.write? format with
    | some text => return addConversion found ⟨format, text⟩
    | none => return found) []
  if found.isEmpty then
    return [⟨.rgba, ← c.rgb true⟩]
  else
    return found

end Color

end Swatch
