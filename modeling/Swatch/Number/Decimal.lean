import Swatch.Text.Blank
import Swatch.Text.Digit

/-!
Decimal numbers as they are written. `Decimal.leading?` reads the number a text starts with,
`Decimal.literal?` a text that is one number; both keep the exact value.
-/

namespace Swatch

structure Decimal where
  negative : Bool
  digits : Nat
  exponent : Int
  deriving Repr, DecidableEq, Inhabited

namespace Decimal

open Text

def ofInt (n : Int) : Decimal :=
  ⟨n < 0, n.natAbs, 0⟩

def hundredths (n : Int) : Decimal :=
  ⟨n < 0, n.natAbs, -2⟩

def toRat (d : Decimal) : Rat :=
  let magnitude : Rat :=
    if 0 ≤ d.exponent then (d.digits * Nat.pow 10 d.exponent.toNat : Nat)
    else mkRat d.digits (Nat.pow 10 (-d.exponent).toNat)
  if d.negative then -magnitude else magnitude

def digitCount (n : Nat) : Nat :=
  (Nat.toDigits 10 n).length

/-- The least number that has no nearest double: half a step beyond the greatest one. -/
def tooLarge : Nat :=
  Nat.pow 2 1024 - Nat.pow 2 970

/-- Whether the number has a nearest double. Far from the bound the digits are not multiplied
out. -/
def isFinite (d : Decimal) : Bool :=
  if d.digits = 0 then true
  else
    let places : Int := digitCount d.digits + d.exponent
    if places < 300 then true
    else if 320 < places then false
    else if 0 ≤ d.exponent then d.digits * Nat.pow 10 d.exponent.toNat < tooLarge
    else d.digits < tooLarge * Nat.pow 10 (-d.exponent).toNat

def sign : List Char → Bool × List Char
  | '-' :: rest => (true, rest)
  | '+' :: rest => (false, rest)
  | cs => (false, cs)

/-- Reads the exponent part of a number with a given way to read digits, if there is one. -/
def exponentPart (readDigits : List Char → List Char × List Char) (cs : List Char) :
    Int × List Char :=
  match cs with
  | mark :: rest =>
    if mark == 'e' || mark == 'E' then
      let (negative, unsigned) := sign rest
      match readDigits unsigned with
      | ([], _) => (0, cs)
      | (digits, after) =>
        let n : Int := digitsValue digits
        (if negative then -n else n, after)
    else (0, cs)
  | [] => (0, cs)

/-- Reads an unsigned number with a given way to read digits: digits around an optional point, at
least one of them, and an optional exponent. -/
def unsigned? (readDigits : List Char → List Char × List Char) (negative : Bool)
    (cs : List Char) : Option (Decimal × List Char) :=
  let (whole, afterWhole) := readDigits cs
  let (fraction, afterFraction) :=
    match afterWhole with
    | '.' :: rest => readDigits rest
    | _ => ([], afterWhole)
  if whole.isEmpty && fraction.isEmpty then none
  else
    let (exponent, rest) := exponentPart readDigits afterFraction
    some (⟨negative, digitsValue (whole ++ fraction), exponent - fraction.length⟩, rest)

/-- The number a text starts with, white space before it aside, and the text after it. -/
def leading? (cs : List Char) : Option (Decimal × List Char) :=
  let (negative, unsigned) := sign (trimStart cs)
  unsigned? (·.span isDigit) negative unsigned

/-- Goes on reading digits after a first one: an underscore may stand between two digits. -/
def groupedTail : List Char → List Char × List Char
  | [] => ([], [])
  | [c] => if isDigit c then ([c], []) else ([], [c])
  | c :: d :: rest =>
    if isDigit c then
      let (digits, after) := groupedTail (d :: rest)
      (c :: digits, after)
    else if c == '_' && isDigit d then
      let (digits, after) := groupedTail rest
      (d :: digits, after)
    else ([], c :: d :: rest)

def grouped : List Char → List Char × List Char
  | c :: rest =>
    if isDigit c then
      let (digits, after) := groupedTail rest
      (c :: digits, after)
    else ([], c :: rest)
  | [] => ([], [])

def literal? (cs : List Char) : Option Decimal :=
  let (negative, unsigned) := sign (trim cs)
  match unsigned? grouped negative unsigned with
  | some (d, []) => some d
  | _ => none

end Decimal

end Swatch
