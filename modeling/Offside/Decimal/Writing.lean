import Offside.Decimal.Shortest

/-!
# Numbers as text

A number is written with its shortest digits, positionally while its leading digit is at least the fourth
decimal place and below ten to the sixteenth, and with a power of ten otherwise.  What is left open is a
`Style`: how a whole number ends and what the values without digits are called.
-/

set_option autoImplicit false

namespace Offside.Decimal

/-- The choices that differ between the places where numbers are shown. -/
structure Style where
  /-- Put behind a whole number that is written positionally. -/
  wholeEnding : String
  infinity : String
  notANumber : String
  deriving DecidableEq, Repr

/-- Numbers in a token listing: a whole number keeps one decimal place. -/
def Style.listing : Style := ⟨".0", "inf", "nan"⟩

/-- Numbers in the one-line form of a tree: a whole number has no decimal places. -/
def Style.tree : Style := ⟨"", "inf", "nan"⟩

/-- Numbers in program output. -/
def Style.display : Style := ⟨"", "Infinity", "NaN"⟩

/-- The power of ten in front of which positional writing starts. -/
def leastPositional : Int := -4

/-- The power of ten at which positional writing ends. -/
def endPositional : Int := 16

/-- A decimal exponent with its sign and at least two digits. -/
def exponentText (e : Int) : String :=
  let digits := Nat.repr e.natAbs
  let sign := if e < 0 then "-" else "+"
  let fill := if digits.length < 2 then "0" else ""
  "e" ++ sign ++ fill ++ digits

/-- Digits with a decimal point after the digit of the units, `e` being the exponent of the first digit. -/
def positionalText (wholeEnding : String) (digits : List Char) (e : Int) : String :=
  if e < 0 then
    String.ofList ('0' :: '.' :: List.replicate (e.natAbs - 1) '0' ++ digits)
  else
    let places := e.toNat + 1
    if digits.length ≤ places then
      String.ofList (digits ++ List.replicate (places - digits.length) '0') ++ wholeEnding
    else
      String.ofList (digits.take places ++ '.' :: digits.drop places)

/-- One digit, the others behind a point, and the power of ten. -/
def scientificText (digits : List Char) (e : Int) : String :=
  let mantissa := match digits with
    | first :: second :: more => first :: '.' :: second :: more
    | short => short
  String.ofList mantissa ++ exponentText e

/-- A positive decimal in the given style. -/
def Scaled.write (style : Style) (d : Scaled) : String :=
  let digits := (Nat.repr d.coefficient).toList
  let e := d.exponent + Int.ofNat digits.length - 1
  if leastPositional ≤ e ∧ e < endPositional then positionalText style.wholeEnding digits e
  else scientificText digits e

/-- A double, seen as a binary fraction, in the given style. -/
def Binary.write (style : Style) : Binary → String
  | .notANumber => style.notANumber
  | .infinite negative => (if negative then "-" else "") ++ style.infinity
  | .finite negative m q =>
    (if negative then "-" else "") ++
      (if m = 0 then "0" ++ style.wholeEnding else (shortest m q).write style)

/-- A double in the given style. -/
def write (style : Style) (x : Float) : String :=
  (Binary.ofFloat x).write style

end Offside.Decimal
