import Swatch.Number.Binary64

/-!
The arithmetic that colours need. It is carried out in doubles when the program runs and may be
read over exact rationals; `Scalar` is what both have in common.
-/

namespace Swatch

inductive ArithmeticError where
  | notANumber
  | infinite
  | divisionByZero
  | outOfRange
  deriving DecidableEq, Repr

def ArithmeticError.message : ArithmeticError → String
  | .notANumber => "cannot convert float NaN to integer"
  | .infinite => "cannot convert float infinity to integer"
  | .divisionByZero => "float division by zero"
  | .outOfRange => "(34, 'Numerical result out of range')"

/-- Numbers with arithmetic, order, a reading of decimals and an exact value. -/
class Scalar (α : Type) extends Add α, Sub α, Mul α, Div α, Neg α, LT α, LE α, BEq α where
  decLt : DecidableLT α
  decLe : DecidableLE α
  ofNat : (n : Nat) → OfNat α n
  ofInt : Int → α
  ofDecimal : Decimal → α
  exact : α → Extended

namespace Scalar

instance {α : Type} [Scalar α] : DecidableLT α := decLt

instance {α : Type} [Scalar α] : DecidableLE α := decLe

instance {α : Type} [Scalar α] (n : Nat) : OfNat α n := ofNat n

instance : Scalar Float where
  decLt := inferInstance
  decLe := inferInstance
  ofNat _ := inferInstance
  ofInt := Float.ofInt
  ofDecimal := Binary64.nearest
  exact := Binary64.exact

instance : Scalar Rat where
  decLt := inferInstance
  decLe := inferInstance
  ofNat _ := inferInstance
  ofInt := Int.cast
  ofDecimal := Decimal.toRat
  exact := Extended.ofRat

variable {α : Type} [Scalar α]

def truncate (x : α) : Except ArithmeticError Int :=
  match exact x with
  | .finite negative magnitude =>
    .ok (if negative then -magnitude.floor else magnitude.floor)
  | .infinite _ => .error .infinite
  | .notANumber => .error .notANumber

def nearest (x : α) : Except ArithmeticError Int :=
  if 0 ≤ x then truncate (x + 1 / 2)
  else (- ·) <$> truncate (-x + 1 / 2)

def nearestHundredth (x : α) : Except ArithmeticError α :=
  (ofDecimal ∘ Decimal.hundredths) <$> nearest (x * 100)

/-- The text of a number: a whole number without a point, any other with six significant digits. -/
def text (x : α) : Except ArithmeticError String := do
  let whole ← truncate x
  return if x == ofInt whole then toString whole else (exact x).general

def greater (x y : α) : α :=
  if x < y then y else x

def smaller (x y : α) : α :=
  if y < x then y else x

def clamp (x low high : α) : α :=
  smaller (greater x low) high

end Scalar

end Swatch
