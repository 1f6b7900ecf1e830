import Offside.Decimal.Binary

/-!
# Shortest decimals

The decimal written for a double has as few digits as any decimal that reads back as the same double, and
among those it is the nearest.  A double `m * 2 ^ q` is read back from exactly the reals between the
midpoints to its two neighbours, the midpoints included if `m` is even.  For one digit, two digits and so on
the two grid points next to the value are tested against that interval; seventeen digits always suffice.

All arithmetic is on natural numbers over a common unit.
-/

set_option autoImplicit false

namespace Offside.Decimal

/-- The decimal `coefficient * 10 ^ exponent`. -/
structure Scaled where
  coefficient : Nat
  exponent : Int
  deriving DecidableEq, Repr

/-- The reals that read back as one double: from `below / unit` to `above / unit`, around `value / unit`. -/
structure Interval where
  below : Nat
  value : Nat
  above : Nat
  unit : Nat
  closed : Bool
  deriving Repr

/-- The interval of the double `m * 2 ^ q`.  Below a power of two the neighbours are half as far apart. -/
def Interval.ofBinary (m : Nat) (q : Int) : Interval :=
  let step := if m = twoTo 52 ∧ Binary.leastExponent < q then 1 else 2
  let factor := twoTo (q - 2).toNat
  { below := (4 * m - step) * factor
    value := 4 * m * factor
    above := (4 * m + 2) * factor
    unit := twoTo (2 - q).toNat
    closed := m % 2 == 0 }

/-- The same interval measured in steps of `10 ^ p`. -/
def Interval.inSteps (i : Interval) (p : Int) : Interval :=
  let factor := tenTo (-p).toNat
  { i with
    below := i.below * factor
    value := i.value * factor
    above := i.above * factor
    unit := i.unit * tenTo p.toNat }

/-- Whether the grid point `n` lies in the interval. -/
def Interval.contains (i : Interval) (n : Nat) : Bool :=
  let x := n * i.unit
  if i.closed then decide (i.below ≤ x ∧ x ≤ i.above) else decide (i.below < x ∧ x < i.above)

/-- The grid point of the interval that is nearest to its value; of two equally near the even one. -/
def Interval.nearest? (i : Interval) : Option Nat :=
  let n := i.value / i.unit
  let twice := 2 * (i.value % i.unit)
  match i.contains n, i.contains (n + 1) with
  | false, false => none
  | true, false => some n
  | false, true => some (n + 1)
  | true, true =>
    if twice < i.unit then some n
    else if i.unit < twice then some (n + 1)
    else if n % 2 = 0 then some n else some (n + 1)

/-- The exponent of the leading decimal digit of `m * 2 ^ q`, for `m` other than zero: from the binary
exponent by the logarithm of two, which leaves two candidates. -/
def leadingExponent (m : Nat) (q : Int) : Int :=
  let guess := Int.fdiv ((Int.ofNat m.log2 + q) * 30103) 100000
  let next := guess + 1
  if tenTo next.toNat * twoTo (-q).toNat ≤ m * twoTo q.toNat * tenTo (-next).toNat then next else guess

/-- Moves up to `fuel` trailing zeros of the coefficient to the exponent. -/
def Scaled.dropZeros : Nat → Scaled → Scaled
  | 0, d => d
  | fuel + 1, d =>
    if d.coefficient % 10 = 0 ∧ d.coefficient ≠ 0 then
      Scaled.dropZeros fuel ⟨d.coefficient / 10, d.exponent + 1⟩
    else d

/-- The shortest decimal that reads back as the double `m * 2 ^ q`, without trailing zeros. -/
def shortest (m : Nat) (q : Int) : Scaled :=
  let interval := Interval.ofBinary m q
  let leading := leadingExponent m q
  let found := (List.range 17).findSome? fun places =>
    let p := leading - Int.ofNat places
    (interval.inSteps p).nearest?.map fun n => Scaled.mk n p
  Scaled.dropZeros 18 (found.getD ⟨0, 0⟩)

end Offside.Decimal
