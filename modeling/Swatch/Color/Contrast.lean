import Swatch.Color.Basic
import Swatch.Color.Hsl

/-!
Contrast between colours: relative luminance, the ratio of two luminances, and the level of
legibility a ratio reaches.
-/

namespace Swatch.Contrast

def linear (channel : Float) : Except ArithmeticError Float :=
  if channel ≤ 0.03928 then .ok (channel / 12.92)
  else
    let base := (channel + 0.055) / 1.055
    let power := base.pow 2.4
    if power.isInf && !base.isInf then .error .outOfRange else .ok power

def luminance (c : Color Float) : Except ArithmeticError Float := do
  let red ← linear c.red
  let green ← linear c.green
  let blue ← linear c.blue
  return 0.2126 * red + 0.7152 * green + 0.0722 * blue

def ratio (a b : Color Float) : Except ArithmeticError Float := do
  let x ← luminance a
  let y ← luminance b
  Hsl.quotient (Scalar.greater x y + 0.05) (Scalar.smaller x y + 0.05)

inductive Level where
  | enhanced
  | minimum
  | large
  | fail
  deriving DecidableEq, Repr

def level (ratio : Float) : Level :=
  if 7.0 ≤ ratio then .enhanced
  else if 4.5 ≤ ratio then .minimum
  else if 3.0 ≤ ratio then .large
  else .fail

def Level.name : Level → String
  | .enhanced => "AAA"
  | .minimum => "AA"
  | .large => "AA Large"
  | .fail => "Fail"

def Level.passes : Level → List String
  | .enhanced => ["AAA (normal)", "AAA (large)", "AA (normal)", "AA (large)"]
  | .minimum => ["AA (normal)", "AA (large)", "AAA (large)"]
  | .large => ["AA (large)"]
  | .fail => []

def white : Color Float := ⟨1, 1, 1, 1, Format.fallbacks⟩

def black : Color Float := ⟨0, 0, 0, 1, Format.fallbacks⟩

structure Sample where
  label : String
  background : Color Float
  ratio : Float

def Sample.level (s : Sample) : Level :=
  Contrast.level s.ratio

def samples (c : Color Float) : Except ArithmeticError (List Sample) :=
  [("white", white), ("black", black)].mapM fun (label, background) => do
    return ⟨label, background, ← ratio c background⟩

end Swatch.Contrast
