/-!
The ways a colour can be written, and the order in which they are offered.
-/

namespace Swatch

/-- A syntax for colours. `compact` is the bare triple of hue, saturation and lightness that
utility classes keep in custom properties. -/
inductive Format where
  | hex
  | hexAlpha
  | rgb
  | rgba
  | hsl
  | hsla
  | compact
  deriving DecidableEq, Repr, Inhabited

namespace Format

def all : List Format :=
  [.hex, .hexAlpha, .rgb, .rgba, .hsl, .hsla, .compact]

def name : Format → String
  | .hex => "hex"
  | .hexAlpha => "hexAlpha"
  | .rgb => "rgb"
  | .rgba => "rgba"
  | .hsl => "hsl"
  | .hsla => "hsla"
  | .compact => "tailwind"

def ofName? (s : String) : Option Format :=
  all.find? fun f => f.name == s

theorem mem_all (f : Format) : f ∈ all := by
  cases f <;> decide

theorem ofName?_name (f : Format) : ofName? f.name = some f := by
  cases f <;> decide

def isOpaqueOnly : Format → Bool
  | .hex | .rgb | .hsl => true
  | .hexAlpha | .rgba | .hsla | .compact => false

def fallbacks : List Format :=
  [.rgba, .hsla, .hexAlpha, .rgb, .hsl, .hex, .compact]

def priority (preferred : Format) : List Format :=
  preferred :: fallbacks.filter (· ≠ preferred)

end Format

end Swatch
