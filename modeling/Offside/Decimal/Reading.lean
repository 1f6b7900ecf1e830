import Offside.Text.Digit
import Offside.Decimal.Binary

/-!
# Text as numbers

Number literals are decimal digits of any script with an optional fraction; they denote the nearest double,
or infinity if they exceed every double.  Number texts additionally may carry a sign and a power of ten, and
name infinity and the value that is not a number.
-/

set_option autoImplicit false

namespace Offside.Decimal

/-- The number that a sequence of digits denotes in base ten. -/
def natOfDigits (digits : List Nat) : Nat :=
  digits.foldl (fun n d => 10 * n + d) 0

/-- Digit values of the decimal digits in a text. -/
def digitValues (cs : List Char) : List Nat :=
  cs.filterMap Text.digitValue?

/-- The double nearest to `n * 10 ^ e`. -/
def nearest (n : Nat) (e : Int) : Float :=
  if e < 0 then Float.ofScientific n true e.natAbs else Float.ofScientific n false e.toNat

/-- The double nearest to `a / b`.  The quotient is taken to so many bits that a last bit for the remainder
settles how it is rounded. -/
def ofRatio (a b : Nat) : Float :=
  let shift := b.log2 + 66 - a.log2
  let quotient := 2 * (a * twoTo shift / b) + (if a * twoTo shift % b = 0 then 0 else 1)
  nearest (quotient * Nat.pow 5 (shift + 1)) (-Int.ofNat (shift + 1))

/-- The value of a number literal: digits, optionally a point and more digits. -/
def ofLiteral (cs : List Char) : Float :=
  let whole := cs.takeWhile Text.isDigit
  let fraction := digitValues (cs.dropWhile Text.isDigit)
  nearest (natOfDigits (digitValues whole ++ fraction)) (-Int.ofNat fraction.length)

/-- The double that is not a number. -/
def notANumber : Float := 0.0 / 0.0

/-- Positive infinity. -/
def infinity : Float := 1.0 / 0.0

/-- A run of ASCII digits that fills the whole text. -/
def plainDigits? (cs : List Char) : Option (List Nat) :=
  if cs.isEmpty then none else cs.mapM fun c => if c.isDigit then some (c.toNat - 48) else none

/-- An integer with an optional sign. -/
def plainInt? : List Char → Option Int
  | '-' :: cs => (plainDigits? cs).map fun ds => -Int.ofNat (natOfDigits ds)
  | '+' :: cs => (plainDigits? cs).map fun ds => Int.ofNat (natOfDigits ds)
  | cs => (plainDigits? cs).map fun ds => Int.ofNat (natOfDigits ds)

/-- An unsigned number text: digits, an optional fraction and an optional power of ten. -/
def unsigned? (cs : List Char) : Option Float := do
  let mantissa := cs.takeWhile (· != 'e')
  let scale ← match cs.dropWhile (· != 'e') with
    | [] => some 0
    | _ :: power => plainInt? power
  let whole ← plainDigits? (mantissa.takeWhile (· != '.'))
  let fraction ← match mantissa.dropWhile (· != '.') with
    | [] => some []
    | _ :: places => plainDigits? places
  return nearest (natOfDigits (whole ++ fraction)) (scale - Int.ofNat fraction.length)

/-- The double that a number text denotes. -/
def read? (s : String) : Option Float :=
  match s.toList with
  | '-' :: cs => if cs = "inf".toList then some (-infinity) else (unsigned? cs).map fun x => -x
  | cs =>
    if cs = "inf".toList then some infinity
    else if cs = "nan".toList then some notANumber
    else unsigned? cs

end Offside.Decimal
