/-!
# Doubles as binary fractions

A double is not a number, an infinity, or a significand times a power of two with a sign.  All exact work
on numbers (writing them, cutting off their fraction) starts from this view.
-/

set_option autoImplicit false

namespace Offside.Decimal

/-- The `n`-th power of two. -/
def twoTo (n : Nat) : Nat :=
  Nat.pow 2 n

/-- The `n`-th power of ten. -/
def tenTo (n : Nat) : Nat :=
  Nat.pow 10 n

/-- What a double denotes: `finite s m q` stands for `m * 2 ^ q`, negative if `s`. -/
inductive Binary where
  | notANumber
  | infinite (negative : Bool)
  | finite (negative : Bool) (significand : Nat) (exponent : Int)
  deriving DecidableEq, Repr

/-- The least exponent of a double. -/
def Binary.leastExponent : Int := -1074

/-- Splits the bit pattern of a double: one sign bit, eleven exponent bits, fifty-two fraction bits. -/
def Binary.ofBits (bits : Nat) : Binary :=
  let negative := bits / twoTo 63 % 2 == 1
  let exponent := bits / twoTo 52 % twoTo 11
  let fraction := bits % twoTo 52
  if exponent = 2047 then
    if fraction = 0 then .infinite negative else .notANumber
  else if exponent = 0 then
    .finite negative fraction Binary.leastExponent
  else
    .finite negative (fraction + twoTo 52) (Int.ofNat exponent - 1075)

/-- The view of a double. -/
def Binary.ofFloat (x : Float) : Binary :=
  Binary.ofBits x.toBits.toNat

/-- The integer next to a number in the direction of zero; `none` if the number is not finite. -/
def Binary.truncate? : Binary → Option Int
  | .notANumber => none
  | .infinite _ => none
  | .finite negative significand exponent =>
    let magnitude :=
      if 0 ≤ exponent then significand * twoTo exponent.toNat else significand / twoTo (-exponent).toNat
    some (if negative then -Int.ofNat magnitude else Int.ofNat magnitude)

/-- How a number compares with an integer; `none` if it is not a number. -/
def Binary.compareInt? (x : Binary) (n : Int) : Option Ordering :=
  match x with
  | .notANumber => none
  | .infinite negative => some (if negative then .lt else .gt)
  | .finite negative significand exponent =>
    let magnitude := Int.ofNat (significand * twoTo exponent.toNat)
    some (compare (if negative then -magnitude else magnitude) (n * Int.ofNat (twoTo (-exponent).toNat)))

/-- The double of an integer, rounded to nearest. -/
def ofInt (n : Int) : Float :=
  let magnitude := Float.ofScientific n.natAbs false 0
  if n < 0 then -magnitude else magnitude

end Offside.Decimal
