import Offside.Decimal.Reading
import Offside.Decimal.Writing

/-!
# Numbers

Programs calculate with doubles.  A host may also supply whole numbers, which are kept exact as long as they meet
nothing but whole numbers.
-/

set_option autoImplicit false

namespace Offside

/-- A number: a double, or a whole number supplied by the host, which is kept exact. -/
inductive Number where
  | double (x : Float)
  | whole (n : Int)
  deriving Repr, Inhabited

namespace Number

/-- A double unless it is infinite. -/
def finite? (x : Float) : Option Float :=
  if x.isInf then none else some x

/-- The nearest double; `none` for a whole number beyond all doubles. -/
def toFloat? : Number → Option Float
  | double x => some x
  | whole n => finite? (Decimal.ofInt n)

/-- The text of a number in program output. -/
def display : Number → String
  | double x => Decimal.write Decimal.Style.display x
  | whole n => toString n

/-- Applies an operation to doubles; `none` if one of the numbers is beyond all doubles. -/
def onDoubles (operation : Float → Float → Float) (a b : Number) : Option Number := do
  return double (operation (← a.toFloat?) (← b.toFloat?))

/-- The sum, exact for whole numbers. -/
def add? : Number → Number → Option Number
  | whole a, whole b => some (whole (a + b))
  | a, b => onDoubles (· + ·) a b

/-- The difference, exact for whole numbers. -/
def sub? : Number → Number → Option Number
  | whole a, whole b => some (whole (a - b))
  | a, b => onDoubles (· - ·) a b

/-- The product, exact for whole numbers. -/
def mul? : Number → Number → Option Number
  | whole a, whole b => some (whole (a * b))
  | a, b => onDoubles (· * ·) a b

/-- The double nearest to the quotient of whole numbers, the divisor not being zero. -/
def quotient (a b : Int) : Float :=
  let magnitude := Decimal.ofRatio a.natAbs b.natAbs
  if (a < 0) = (b < 0) then magnitude else -magnitude

/-- The quotient, always a double; division by zero gives an infinity, or no number for zero itself. -/
def div? : Number → Number → Option Number
  | whole a, whole b =>
    if b = 0 then onDoubles (· / ·) (whole a) (whole b)
    else (finite? (quotient a b)).map double
  | a, b => onDoubles (· / ·) a b

/-- The number with the other sign. -/
def neg : Number → Number
  | double x => double (-x)
  | whole n => whole (-n)

/-- How a double compares with a whole number, exactly; `none` for the double that is not a number. -/
def compareWhole? (x : Float) (n : Int) : Option Ordering :=
  (Decimal.Binary.ofFloat x).compareInt? n

/-- Numeric equality; the double that is not a number equals nothing. -/
def equal : Number → Number → Bool
  | double x, double y => x == y
  | double x, whole n => compareWhole? x n == some .eq
  | whole n, double x => compareWhole? x n == some .eq
  | whole a, whole b => a == b

/-- Strictly less. -/
def less : Number → Number → Bool
  | double x, double y => decide (x < y)
  | double x, whole n => compareWhole? x n == some .lt
  | whole n, double x => compareWhole? x n == some .gt
  | whole a, whole b => decide (a < b)

/-- Less or equal. -/
def lessEqual (a b : Number) : Bool :=
  a.less b || a.equal b

/-- The whole number next to it in the direction of zero; `none` if it is not finite. -/
def truncate? : Number → Option Int
  | double x => (Decimal.Binary.ofFloat x).truncate?
  | whole n => some n

end Number

end Offside
