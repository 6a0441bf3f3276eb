import Swatch.Number.Decimal

/-!
Exact numbers together with infinities and the lack of a number, and their texts: with a fixed
number of places, with six significant digits, and the shortest text that reads back.
-/

namespace Swatch

/-- An exact number, whose sign is kept apart so that zero has one too, an infinity, or no number. -/
inductive Extended where
  | finite (negative : Bool) (magnitude : Rat)
  | infinite (negative : Bool)
  | notANumber
  deriving Repr

def roundHalfEven (num den : Nat) : Nat :=
  let quotient := num / den
  let twice := 2 * (num % den)
  if twice < den then quotient
  else if den < twice then quotient + 1
  else quotient + quotient % 2

namespace Extended

def ofRat (q : Rat) : Extended :=
  .finite (q < 0) (if q < 0 then -q else q)

def digitsPadded (width n : Nat) : List Char :=
  let digits := Nat.toDigits 10 n
  List.replicate (width - digits.length) '0' ++ digits

def pointed (places units : Nat) : List Char :=
  let digits := digitsPadded (places + 1) units
  if places = 0 then digits
  else digits.take (digits.length - places) ++ '.' :: digits.drop (digits.length - places)

/-- A magnitude scaled by a power of ten and rounded to a whole number, halves to even. -/
def scaled (magnitude : Rat) (power : Int) : Nat :=
  if 0 ≤ power then roundHalfEven (magnitude.num.natAbs * Nat.pow 10 power.toNat) magnitude.den
  else roundHalfEven magnitude.num.natAbs (magnitude.den * Nat.pow 10 (-power).toNat)

def signed (negative : Bool) (cs : List Char) : String :=
  String.ofList (if negative then '-' :: cs else cs)

def render (text : Rat → List Char) : Extended → String
  | .finite negative magnitude => signed negative (text magnitude)
  | .infinite negative => signed negative ['i', 'n', 'f']
  | .notANumber => "nan"

def fixed (places : Nat) (x : Extended) : String :=
  x.render fun magnitude => pointed places (scaled magnitude places)

def decimalExponent (magnitude : Rat) : Int :=
  let guess : Int := Decimal.digitCount magnitude.num.natAbs - Decimal.digitCount magnitude.den
  let reached : Bool :=
    if 0 ≤ guess then magnitude.den * Nat.pow 10 guess.toNat ≤ magnitude.num.natAbs
    else magnitude.den ≤ magnitude.num.natAbs * Nat.pow 10 (-guess).toNat
  if reached then guess else guess - 1

def dropFractionZeros (cs : List Char) : List Char :=
  if cs.contains '.' then
    let kept := cs.reverse.dropWhile (· == '0')
    (if kept.head? == some '.' then kept.tail else kept).reverse
  else cs

/-- The exponent part of a number in scientific notation: a sign and at least two digits. -/
def exponentText (exponent : Int) : List Char :=
  'e' :: (if exponent < 0 then '-' else '+') :: digitsPadded 2 exponent.natAbs

/-- Significant digits, the first of which counts `10 ^ exponent`, in scientific notation. -/
def scientific (digits : List Char) (exponent : Int) : List Char :=
  let mantissa :=
    match digits with
    | first :: more => if more.isEmpty then [first] else first :: '.' :: more
    | [] => []
  mantissa ++ exponentText exponent

/-- The text with six significant digits: positional for numbers from a ten-thousandth up to a
million, scientific beyond, and without zeros at the end of the fraction. -/
def general (x : Extended) : String :=
  x.render fun magnitude =>
    if magnitude == 0 then ['0']
    else
      let guess := decimalExponent magnitude
      let units := scaled magnitude (5 - guess)
      let (digits, exponent) := if units < 1000000 then (units, guess) else (units / 10, guess + 1)
      if -4 ≤ exponent && exponent < 6 then
        dropFractionZeros (pointed (5 - exponent).toNat digits)
      else
        let mantissa := dropFractionZeros (pointed 5 digits)
        mantissa ++ exponentText exponent

end Extended

end Swatch
