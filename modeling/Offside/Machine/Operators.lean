import Offside.Machine

/-!
# Operators

What unary and binary operators do to values.  Sums join texts if either side is one; every other operator
but equality takes numbers.
-/

set_option autoImplicit false

namespace Offside.Run

open Token (Kind)

/-- A sign in front of a value: a minus negates a number, any other sign negates truth. -/
def unary (operator : Token) (operand : Value) : Run Value :=
  if operator.kind = .minus then
    match operand with
    | .number n => return .number n.neg
    | _ => fail operator .operandNotNumber
  else
    return .boolean !operand.isTruthy

/-- The result of arithmetic, which may be beyond all doubles. -/
def result (n : Option Number) : Run Value :=
  match n with
  | some n => return .number n
  | none => throw .tooLarge

/-- A sum of numbers, or a text if either side is one. -/
def plus (operator : Token) (left right : Value) : Run Value :=
  match left, right with
  | .number a, .number b => result (a.add? b)
  | .text a, b => return .text (a ++ b.display)
  | a, .text b => return .text (a.display ++ b)
  | a, b => fail operator (.cannotAdd a.kindName b.kindName)

/-- The operation on numbers that an operator stands for, sums aside. -/
def numeric? : Kind → Option (Number → Number → Run Value)
  | .minus => some fun a b => result (a.sub? b)
  | .star => some fun a b => result (a.mul? b)
  | .slash => some fun a b => result (a.div? b)
  | .greater => some fun a b => return .boolean (b.less a)
  | .greaterEqual => some fun a b => return .boolean (b.lessEqual a)
  | .less => some fun a b => return .boolean (a.less b)
  | .lessEqual => some fun a b => return .boolean (a.lessEqual b)
  | _ => none

/-- A binary operator applied to two values. -/
def binary (operator : Token) (left right : Value) : Run Value :=
  match numeric? operator.kind with
  | some operation =>
    match left, right with
    | .number a, .number b => operation a b
    | _, _ => fail operator .operandsNotNumbers
  | none =>
    match operator.kind with
    | .plus => plus operator left right
    | .bangEqual => return .boolean !(left.equal right)
    | .equalEqual => return .boolean (left.equal right)
    | _ => fail operator (.unknownOperator operator.lexeme)

end Offside.Run
