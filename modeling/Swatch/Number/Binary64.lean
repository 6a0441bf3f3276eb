import Swatch.Number.Extended

/-!
Doubles and their exact values. `Binary64.exact` takes a double apart, `Binary64.nearest` finds the
double for a decimal, and `Binary64.shortest` writes the fewest digits that read back.
-/

namespace Swatch.Binary64

/-- The sign, the exponent field and the fraction field of a double. -/
structure Fields where
  negative : Bool
  exponent : Nat
  fraction : Nat

def fields (x : Float) : Fields :=
  let bits := x.toBits.toNat
  ⟨bits / Nat.pow 2 63 == 1, bits / Nat.pow 2 52 % Nat.pow 2 11, bits % Nat.pow 2 52⟩

structure Magnitude where
  mantissa : Nat
  power : Int

def Fields.magnitude (f : Fields) : Magnitude :=
  if f.exponent = 0 then ⟨f.fraction, -1074⟩ else ⟨f.fraction + Nat.pow 2 52, f.exponent - 1075⟩

def Magnitude.toRat (m : Magnitude) : Rat :=
  if 0 ≤ m.power then (m.mantissa * Nat.pow 2 m.power.toNat : Nat)
  else mkRat m.mantissa (Nat.pow 2 (-m.power).toNat)

def exact (x : Float) : Extended :=
  let f := fields x
  if f.exponent = 2047 then
    if f.fraction = 0 then .infinite f.negative else .notANumber
  else .finite f.negative f.magnitude.toRat

def nearest (d : Decimal) : Float :=
  let magnitude :=
    if !d.isFinite then 1.0 / 0.0
    else if d.digits = 0 || (Decimal.digitCount d.digits : Int) + d.exponent < -400 then 0.0
    else if 0 ≤ d.exponent then Float.ofScientific (d.digits * Nat.pow 10 d.exponent.toNat) false 0
    else Float.ofScientific d.digits true (-d.exponent).toNat
  if d.negative then -magnitude else magnitude

/-- The bounds between which decimals read back as a given magnitude, in quarters of its last
place: the step below a power of two is half as wide. Even mantissas own their bounds. -/
structure Interval where
  low : Rat
  high : Rat
  closed : Bool

def Fields.interval (f : Fields) : Interval :=
  let m := f.magnitude
  let below := if f.fraction = 0 && 1 < f.exponent then 1 else 2
  let quarter (n : Nat) := (Magnitude.mk n (m.power - 2)).toRat
  ⟨quarter (4 * m.mantissa - below), quarter (4 * m.mantissa + 2), m.mantissa % 2 == 0⟩

def Interval.contains (i : Interval) (q : Rat) : Bool :=
  if i.closed then i.low ≤ q && q ≤ i.high else i.low < q && q < i.high

def onGrid (units : Nat) (power : Int) : Rat :=
  (Decimal.mk false units power).toRat

/-- The point of the grid of `10 ^ power` that reads back and lies nearest to a magnitude, if one
of its two neighbours there reads back; of two equally near ones the even one. -/
def onGrid? (i : Interval) (magnitude : Rat) (power : Int) : Option Nat :=
  let low := (magnitude / onGrid 1 power).floor.toNat
  let fits (n : Nat) := i.contains (onGrid n power)
  match fits low, fits (low + 1) with
  | true, true => some (Extended.scaled magnitude (-power))
  | true, false => some low
  | false, true => some (low + 1)
  | false, false => none

/-- The digits of the shortest decimal that reads back as a positive magnitude, and the power of
ten that the last one counts: the first of the grids of one digit, two digits, … that has one. -/
def shortestDigits (i : Interval) (magnitude : Rat) : Nat × Int :=
  let top := Extended.decimalExponent magnitude
  let grids := (List.range 17).map fun (k : Nat) => top - (k : Int)
  match grids.findSome? fun power => (onGrid? i magnitude power).map (·, power) with
  | some found => found
  | none => (Extended.scaled magnitude (17 - top), top - 17)

/-- Digits whose last one counts `10 ^ power`: positional from a ten-thousandth up to ten to the
sixteenth, where a whole number keeps one zero after the point, and scientific beyond. -/
def written (units : Nat) (power : Int) : List Char :=
  let all := Nat.toDigits 10 units
  let digits := (all.reverse.dropWhile (· == '0')).reverse
  let exponent : Int := power + (all.length - 1 : Nat)
  if -4 ≤ exponent && exponent < 16 then
    if exponent < 0 then
      '0' :: '.' :: (List.replicate (-exponent - 1).toNat '0' ++ digits)
    else
      let whole := exponent.toNat + 1
      let fraction := digits.drop whole
      digits.take whole ++ List.replicate (whole - digits.length) '0' ++
        '.' :: (if fraction.isEmpty then ['0'] else fraction)
  else Extended.scientific digits exponent

def shortest (x : Float) : String :=
  let f := fields x
  (exact x).render fun magnitude =>
    if magnitude == 0 then ['0', '.', '0']
    else
      let (units, power) := shortestDigits f.interval magnitude
      written units power

end Swatch.Binary64
