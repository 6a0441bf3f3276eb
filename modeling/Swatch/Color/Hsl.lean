import Swatch.Number.Scalar

/-!
Hue, saturation and lightness, and the conversions to and from red, green and blue.
-/

namespace Swatch

/-- Hue in degrees, saturation and lightness in percent. -/
structure Hsl (α : Type) where
  hue : α
  saturation : α
  lightness : α
  deriving Repr

namespace Hsl

variable {α : Type} [Scalar α]

def quotient (x y : α) : Except ArithmeticError α :=
  if y == 0 then .error .divisionByZero else .ok (x / y)

/-- The hue in sixths of a turn, from the channel that is largest, asked in the order red, green,
blue. -/
def sector (red green blue maximum delta : α) : Except ArithmeticError α :=
  if maximum == red then do
    let offset ← quotient (green - blue) delta
    return offset + (if green < blue then 6 else 0)
  else if maximum == green then do
    let offset ← quotient (blue - red) delta
    return offset + 2
  else do
    let offset ← quotient (red - green) delta
    return offset + 4

def ofRgb (red green blue : α) : Except ArithmeticError (Hsl α) := do
  let r := red / 255
  let g := green / 255
  let b := blue / 255
  let maximum := Scalar.greater (Scalar.greater r g) b
  let minimum := Scalar.smaller (Scalar.smaller r g) b
  let lightness := (maximum + minimum) / 2
  if maximum == minimum then
    return ⟨0, 0 * 100, lightness * 100⟩
  else
    let delta := maximum - minimum
    let saturation ←
      quotient delta (if 1 / 2 < lightness then 2 - maximum - minimum else maximum + minimum)
    let sixths ← sector r g b maximum delta
    return ⟨sixths * 60, saturation * 100, lightness * 100⟩

def wrap (t : α) : α :=
  let t := if t < 0 then t + 1 else t
  if 1 < t then t - 1 else t

/-- The strength of a channel at the place `t` on the colour circle, between its least strength `p`
and its greatest `q`. -/
def channelAt (p q t : α) : α :=
  let t := wrap t
  if t < 1 / 6 then p + (q - p) * 6 * t
  else if t < 1 / 2 then q
  else if t < 2 / 3 then p + (q - p) * (2 / 3 - t) * 6
  else p

/-- The three channels as whole numbers; they lie between 0 and 255 where the components are in
their range. -/
def channels (x : Hsl α) : Except ArithmeticError (Int × Int × Int) := do
  let h := x.hue / 360
  let s := x.saturation / 100
  let l := x.lightness / 100
  if s == 0 then
    let gray ← Scalar.nearest (l * 255)
    return (gray, gray, gray)
  else
    let q := if l < 1 / 2 then l * (1 + s) else l + s - l * s
    let p := 2 * l - q
    let red ← Scalar.nearest (channelAt p q (h + 1 / 3) * 255)
    let green ← Scalar.nearest (channelAt p q h * 255)
    let blue ← Scalar.nearest (channelAt p q (h - 1 / 3) * 255)
    return (red, green, blue)

def clamped (x : Hsl α) : Hsl α :=
  ⟨Scalar.clamp x.hue 0 360, Scalar.clamp x.saturation 0 100, Scalar.clamp x.lightness 0 100⟩

end Hsl

end Swatch
