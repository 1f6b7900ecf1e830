import Offside.Reader.Cursor

/-!
# Reading expressions

From the loosest to the tightest: `or`, `and`, equality, comparison, sums, products, signs in front, calls
and fields, and the smallest expressions.  Each level is a step over the step for the next tighter level;
the smallest expressions contain whole expressions between parentheses, which is the only recursion.

The number that the steps take bounds the tokens that are left, hence also the repetitions and the nesting.
-/

set_option autoImplicit false

namespace Offside.Reading

open Token (Kind)

/-! ## Binary operators -/

/-- The precedences of binary operators. -/
inductive Tier where
  | alternative | conjunction | equality | comparison | sum | product
  deriving DecidableEq, Repr

/-- The operators of a tier. -/
def Tier.isOperator : Tier → Kind → Bool
  | alternative, k => k == .orWord
  | conjunction, k => k == .andWord
  | equality, k => k == .bangEqual || k == .equalEqual
  | comparison, k => k == .greater || k == .greaterEqual || k == .less || k == .lessEqual
  | sum, k => k == .minus || k == .plus
  | product, k => k == .slash || k == .star

/-- What an operator of a tier makes of its operands. -/
def Tier.join : Tier → Expr Unit → Token → Expr Unit → Expr Unit
  | alternative | conjunction => .logical
  | equality | comparison | sum | product => .binary

/-- The tiers, the loosest first. -/
def tiers : List Tier :=
  [.alternative, .conjunction, .equality, .comparison, .sum, .product]

/-- Joins operands to the left while an operator of the tier follows. -/
def joinFrom (tier : Tier) (operand : Reading (Expr Unit)) : Nat → Expr Unit → Reading (Expr Unit)
  | 0, left => pure left
  | fuel + 1, left => do
    match ← accept? tier.isOperator with
    | none => return left
    | some operator =>
      let right ← operand
      joinFrom tier operand fuel (tier.join left operator right)

/-- Operands joined to the left by operators of one tier. -/
def leftAssociative (tier : Tier) (fuel : Nat) (operand : Reading (Expr Unit)) :
    Reading (Expr Unit) := do
  let first ← operand
  joinFrom tier operand fuel first

/-- Signs in front of an operand. -/
def isSign (k : Kind) : Bool :=
  k == .bang || k == .minus

/-! ## Signs in front, calls and fields -/

/-- An operand with any number of signs in front. -/
def signed (operand : Reading (Expr Unit)) : Nat → Reading (Expr Unit)
  | 0 => operand
  | fuel + 1 => do
    match ← accept? isSign with
    | none => operand
    | some operator => return .unary operator (← signed operand fuel)

/-- The arguments of a call behind those in `read`, separated by commas. -/
def argumentsFrom (expression : Reading (Expr Unit)) : Nat → List (Expr Unit) →
    Reading (List (Expr Unit))
  | 0, _ => abandon (.expected "expression")
  | fuel + 1, read => do
    limitCount read.length "arguments"
    let argument ← expression
    match ← accept? (· == .comma) with
    | none => return read ++ [argument]
    | some _ => argumentsFrom expression fuel (read ++ [argument])

/-- The arguments of a call, which may have none. -/
def argumentList (expression : Reading (Expr Unit)) (fuel : Nat) : Reading (List (Expr Unit)) := do
  if ← check (· == .rightParen) then return [] else argumentsFrom expression fuel []

/-- The rest of a call behind its opening parenthesis. -/
def finishCall (expression : Reading (Expr Unit)) (fuel : Nat) (callee : Expr Unit) :
    Reading (Expr Unit) := do
  let arguments ← argumentList expression fuel
  let paren ← expect .rightParen "')' after arguments"
  return .call callee paren arguments

/-- Calls and fields behind an expression. -/
def suffixesFrom (expression : Reading (Expr Unit)) (limit : Nat) : Nat → Expr Unit →
    Reading (Expr Unit)
  | 0, left => pure left
  | fuel + 1, left => do
    match ← accept? (· == .leftParen) with
    | some _ =>
      let call ← finishCall expression limit left
      suffixesFrom expression limit fuel call
    | none =>
      match ← accept? (· == .dot) with
      | some _ =>
        let field ← expect .identifier "property name after '.'"
        suffixesFrom expression limit fuel (.getField left field)
      | none => return left

/-! ## Smallest expressions -/

/-- The value of a token that denotes one. -/
def literalOf? (t : Token) : Option Literal :=
  match t.kind with
  | .falseWord => some (.boolean false)
  | .trueWord => some (.boolean true)
  | .nullWord => some .null
  | .number | .string => some t.literal
  | _ => none

/-- First tokens of the smallest expressions. -/
def startsPrimary (k : Kind) : Bool :=
  k == .falseWord || k == .trueWord || k == .nullWord || k == .number || k == .string ||
    k == .superWord || k == .thisWord || k == .identifier || k == .leftParen

/-- The smallest expression that begins with the token `t`, which has been consumed. -/
def primaryFrom (expression : Reading (Expr Unit)) (t : Token) : Reading (Expr Unit) := do
  match t.kind with
  | .superWord =>
    let _ ← expect .dot "'.' after 'super'"
    let method ← expect .identifier "superclass method name"
    return .superRef t method ()
  | .thisWord => return .thisRef t ()
  | .identifier => return .name t ()
  | .leftParen =>
    let inner ← expression
    let _ ← expect .rightParen "')' after expression"
    return .group inner
  | _ => return .literal ((literalOf? t).getD .null)

/-- A literal, a variable, `this`, a method of the superclass, or an expression in parentheses. -/
def primary (expression : Reading (Expr Unit)) : Reading (Expr Unit) := do
  match ← accept? startsPrimary with
  | none => abandon (.expected "expression")
  | some t => primaryFrom expression t

/-- A smallest expression with its calls and fields. -/
def postfixed (expression : Reading (Expr Unit)) (fuel : Nat) : Reading (Expr Unit) := do
  let first ← primary expression
  suffixesFrom expression fuel fuel first

/-! ## Whole expressions -/

/-- The operators of some tiers, the loosest first, over a step for the expressions between parentheses. -/
def levels (fuel : Nat) (expression : Reading (Expr Unit)) : List Tier → Reading (Expr Unit)
  | [] => signed (postfixed expression fuel) fuel
  | tier :: more => leftAssociative tier fuel (levels fuel expression more)

/-- An expression of at most `fuel` tokens. -/
def expression : Nat → Cursor → EStateM.Result Abandoned Cursor (Expr Unit)
  | 0, s => abandon (.expected "expression") s
  | fuel + 1, s => levels (fuel + 1) (expression fuel) tiers s

end Offside.Reading
