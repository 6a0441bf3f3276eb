import Swatch.Color.Basic
import Swatch.Color.Hsl
import Swatch.Text.Scan

/-!
Reading colours. A text is a colour if, white space around it aside, it is a hexadecimal literal, a
call of `rgb`, `rgba`, `hsl` or `hsla`, or a compact triple. Nothing else is one, and no text is an
error.
-/

namespace Swatch

open Text

def hexValue? (c : Char) : Option Nat :=
  if c.isDigit then some (c.toNat - '0'.toNat)
  else if 'a' ≤ c && c ≤ 'f' then some (c.toNat - 'a'.toNat + 10)
  else if 'A' ≤ c && c ≤ 'F' then some (c.toNat - 'A'.toNat + 10)
  else none

def isHex (c : Char) : Bool :=
  (hexValue? c).isSome

/-- The digits of a hexadecimal colour as pairs: a short literal stands for doubled digits. -/
def hexPairs : List Nat → Option (List Nat)
  | [r, g, b] => some [17 * r, 17 * g, 17 * b]
  | [r, g, b, a] => some [17 * r, 17 * g, 17 * b, 17 * a]
  | [r, r', g, g', b, b'] => some [16 * r + r', 16 * g + g', 16 * b + b']
  | [r, r', g, g', b, b', a, a'] =>
    some [16 * r + r', 16 * g + g', 16 * b + b', 16 * a + a']
  | _ => none

/-- The body of a call of a function whose name is the given small letters, in whatever case, with
or without an `a` at the end. The call has to be the whole text. -/
def callBody? (letters : List Char) (text : List Char) : Option (List Char) := do
  let rest ← afterFolded? letters text
  let rest :=
    match rest with
    | c :: after => if isSpellingOf 'a' c then after else rest
    | [] => rest
  match rest with
  | '(' :: body => if body.getLast? == some ')' then some body.dropLast else none
  | _ => none

def isSeparator (c : Char) : Bool :=
  isBlank c || c == ',' || c == '/'

/-- Whether a call is written with opacity: by its name, by a fourth argument or by a slash. -/
def hasAlpha (name : String) (text : List Char) (arguments : List (List Char)) : Bool :=
  (text.take 4).map Char.toLower == name.toList || 3 < arguments.length || text.contains '/'

/-- A triple of hue, saturation and lightness as it is written, with the text of its opacity. -/
structure CompactTriple where
  hue : Decimal
  saturation : Decimal
  lightness : Decimal
  alpha : Option (List Char)

namespace CompactTriple

def plain? (cs : List Char) : Option (Decimal × List Char) := do
  let (whole, rest) ← run? Char.isDigit cs
  match rest with
  | '.' :: afterPoint =>
    match run? Char.isDigit afterPoint with
    | some (fraction, after) =>
      some (⟨false, digitsValue (whole ++ fraction), -(fraction.length : Int)⟩, after)
    | none => some (⟨false, digitsValue whole, 0⟩, rest)
  | _ => some (⟨false, digitsValue whole, 0⟩, rest)

def gap? (cs : List Char) : Option (List Char) :=
  (run? isBlank cs).map (·.2)

def percentage? (cs : List Char) : Option (Decimal × List Char) := do
  let (d, rest) ← plain? (← gap? cs)
  match rest with
  | '%' :: after => some (d, after)
  | _ => none

def alpha? (cs : List Char) : Option (List Char × List Char) :=
  let fraction? (cs : List Char) : Option (List Char × List Char) :=
    match cs with
    | '.' :: rest => (run? isDigit rest).map fun (digits, after) => ('.' :: digits, after)
    | _ => none
  match cs with
  | '0' :: rest => (fraction? rest).map fun (digits, after) => ('0' :: digits, after)
  | '1' :: '.' :: rest =>
    match run? (· == '0') rest with
    | some (zeros, after) => some ('1' :: '.' :: zeros, after)
    | none => some (['1'], '.' :: rest)
  | '1' :: rest => some (['1'], rest)
  | _ => fraction? cs

def slashed? (cs : List Char) : Option (List Char × List Char) :=
  match trimStart cs with
  | '/' :: rest => alpha? (trimStart rest)
  | _ => none

def read? (cs : List Char) : Option (CompactTriple × List Char) := do
  let (hue, rest) ← plain? cs
  let (saturation, rest) ← percentage? rest
  let (lightness, rest) ← percentage? rest
  match slashed? rest with
  | some (alpha, after) => some (⟨hue, saturation, lightness, some alpha⟩, after)
  | none => some (⟨hue, saturation, lightness, none⟩, rest)

end CompactTriple

namespace Color

variable {α : Type} [Scalar α]

def leadingNumber? (cs : List Char) : Option α :=
  match Decimal.leading? cs with
  | some (d, _) => if d.isFinite then some (Scalar.ofDecimal d) else none
  | none => none

/-- Opacity: a percentage or a fraction, and full where it is missing or not a number. -/
def opacity (part : Option (List Char)) : α :=
  match part with
  | none => 1
  | some cs =>
    match leadingNumber? (trim cs) with
    | none => 1
    | some x =>
      if (trim cs).getLast? == some '%' then Scalar.clamp x 0 100 / 100 else Scalar.clamp x 0 1

/-- A red, green or blue argument: a percentage, which may have letters between number and sign, or
a number. -/
def channel? (part : List Char) : Except ArithmeticError (Option Int) :=
  if part.getLast? == some '%' then
    match (leadingNumber? part : Option α) with
    | some percent => some <$> Scalar.nearest (Scalar.clamp percent 0 100 / 100 * 255)
    | none => .ok none
  else
    match Decimal.literal? part with
    | some d =>
      if d.isFinite then do
        let n ← Scalar.nearest (Scalar.ofDecimal d : α)
        return some (min (max n 0) 255)
      else .ok none
    | none => .ok none

def ofHex? (digits : List Char) : Option (Color α) := do
  let values ← digits.mapM hexValue?
  match ← hexPairs values with
  | [r, g, b] => some (ofChannels (r, g, b) 1 .hex)
  | [r, g, b, a] => some (ofChannels (r, g, b) (Scalar.ofInt a / 255) .hexAlpha)
  | _ => none

def ofRgbCall (text body : List Char) : Except ArithmeticError (Option (Color α)) :=
  let arguments := pieces isSeparator body
  match arguments with
  | r :: g :: b :: more => do
    let red? ← channel? (α := α) r
    let green? ← channel? (α := α) g
    let blue? ← channel? (α := α) b
    let format := if hasAlpha "rgba" text arguments then Format.rgba else .rgb
    match red?, green?, blue? with
    | some red, some green, some blue =>
      return some (ofChannels (red, green, blue) (opacity more.head?) format)
    | _, _, _ => return none
  | _ => .ok none

def ofHsl (x : Hsl α) (alpha : α) (written : Format) : Except ArithmeticError (Color α) := do
  return ofChannels (← x.clamped.channels) alpha written

def ofHslCall (text body : List Char) : Except ArithmeticError (Option (Color α)) :=
  let arguments := pieces isSeparator body
  match arguments with
  | h :: s :: l :: more =>
    let format := if hasAlpha "hsla" text arguments then Format.hsla else .hsl
    match leadingNumber? h, leadingNumber? s, leadingNumber? l with
    | some hue, some saturation, some lightness =>
      some <$> ofHsl ⟨hue, saturation, lightness⟩ (opacity more.head?) format
    | _, _, _ => .ok none
  | _ => .ok none

def ofCompact (text : List Char) : Except ArithmeticError (Option (Color α)) :=
  match CompactTriple.read? text with
  | some (x, []) =>
    some <$> ofHsl
      ⟨Scalar.ofDecimal x.hue, Scalar.ofDecimal x.saturation, Scalar.ofDecimal x.lightness⟩
      (opacity x.alpha) .compact
  | _ => .ok none

def ofTrimmed (text : List Char) : Except ArithmeticError (Option (Color α)) :=
  match text with
  | '#' :: digits => .ok (ofHex? digits)
  | _ =>
    match callBody? ['r', 'g', 'b'] text with
    | some body => ofRgbCall text body
    | none =>
      match callBody? ['h', 's', 'l'] text with
      | some body => ofHslCall text body
      | none => ofCompact text

/-- Reads a text with the errors that whole channels could meet on the way. -/
def attempt (cs : List Char) : Except ArithmeticError (Option (Color α)) :=
  ofTrimmed (trim cs)

/-- The colour that a text is, if it is one. -/
def ofChars? (cs : List Char) : Option (Color α) :=
  (attempt cs).toOption.join

def ofText? (s : String) : Option (Color α) :=
  ofChars? s.toList

end Color

end Swatch
