import Offside.Reader.Block
import Offside.Reader.Expression

/-!
# Reading statements

One statement per line; a statement with a body is a header that ends in a colon and a block.  A statement
with an error is reported, replaced by one that does nothing, and skipped, so that one reading finds as many
independent errors as possible.

* `Reading.declaration` — one statement;
* `Program.read` — a whole text.
-/

set_option autoImplicit false

namespace Offside.Reading

open Token (Kind)

/-- The statements of the block behind a colon. -/
def block (fuel : Nat) (item : Reading (Stmt Unit)) : Reading (List (Stmt Unit)) :=
  indented fuel (some <$> item)

/-! ## Functions and classes -/

/-- The parameters of a function behind those in `read`, separated by commas. -/
def paramsFrom : Nat → List Token → Reading (List Token)
  | 0, _ => abandon (.expected "parameter name")
  | fuel + 1, read => do
    limitCount read.length "parameters"
    let param ← expect .identifier "parameter name"
    match ← accept? (· == .comma) with
    | none => return read ++ [param]
    | some _ => paramsFrom fuel (read ++ [param])

/-- The parameters of a function, which may have none. -/
def paramList (fuel : Nat) : Reading (List Token) := do
  if ← check (· == .rightParen) then return [] else paramsFrom fuel []

/-- The parameters of a function between their parentheses; `what` says what is being read. -/
def enclosedParams (fuel : Nat) (what : String) : Reading (List Token) := do
  let _ ← expect .leftParen ("'(' after " ++ what ++ " name")
  let params ← paramList fuel
  let _ ← expect .rightParen "')' after parameters"
  return params

/-- The return type, if one is given. -/
def returnType : Reading (Option Token) := do
  match ← accept? (· == .doubleColon) with
  | none => return none
  | some _ =>
    match ← accept? (fun k => k == .identifier || k == .nullWord) with
    | some t => return some t
    | none => abandon (.expected "return type")

/-- A function or method behind its keyword; `what` says which of the two. -/
def routine (fuel : Nat) (item : Reading (Stmt Unit)) (what : String) : Reading (Routine Unit) := do
  let name ← expect .identifier (what ++ " name")
  let params ← enclosedParams fuel what
  let type ← returnType
  let _ ← expect .colon ("':' before " ++ what ++ " body")
  let body ← block fuel item
  return .mk name params body type

/-- A method on a line of its own. -/
def methodLine (fuel : Nat) (item : Reading (Stmt Unit)) : Reading (Routine Unit) := do
  beginLine
  let _ ← expect .functionWord "method declaration"
  routine fuel item "method"

/-- One line of a class body; a broken method is left out. -/
def method (fuel : Nat) (item : Reading (Stmt Unit)) : Reading (Option (Routine Unit)) :=
  recovering (some <$> methodLine fuel item) none

/-- The superclass, if one is given. -/
def superclass : Reading (Option (Token × Unit)) := do
  match ← accept? (· == .doubleColon) with
  | none => return none
  | some _ => return some (← expect .identifier "superclass name", ())

/-- A class behind its keyword. -/
def classDef (fuel : Nat) (item : Reading (Stmt Unit)) : Reading (Stmt Unit) := do
  let name ← expect .identifier "class name"
  let parent ← superclass
  let _ ← expect .colon "':' before class body"
  let methods ← indented fuel (method fuel item)
  return .classDef name parent methods

/-! ## Simple statements -/

/-- The assignment of a value to a variable or a field; `mark` is the word between target and value. -/
def assignTo (target : Expr Unit) (mark : Token) (value : Expr Unit) : Reading (Stmt Unit) := do
  match target with
  | .name token _ => return .assign token (some value) ()
  | .getField object field => return .evaluate (.setField object field value)
  | _ =>
    modify fun s => s.complain mark .assignmentTarget
    return .evaluate target

/-- The statement that begins with the expression `target`. -/
def assignmentFrom (fuel : Nat) (target : Expr Unit) : Reading (Stmt Unit) := do
  match ← accept? (· == .toWord) with
  | none => return .evaluate target
  | some mark => assignTo target mark (← expression fuel)

/-- An expression, or an assignment to a variable or a field. -/
def assignment (fuel : Nat) : Reading (Stmt Unit) := do
  assignmentFrom fuel (← expression fuel)

/-- The value behind `return`, which starts on the line of the keyword. -/
def givenBack (fuel : Nat) (keyword : Token) : Reading (Stmt Unit) := do
  let s ← get
  if !s.rest.isEmpty && s.current.line == keyword.line then
    return .giveBack keyword (some (← expression fuel))
  else
    return .giveBack keyword none

/-! ## Branches and loops -/

/-- What follows `else`: a further branch, read by `next`, or a block. -/
def alternative (limit : Nat) (item next : Reading (Stmt Unit)) : Reading (Stmt Unit) := do
  match ← accept? (· == .ifWord) with
  | some _ => next
  | none =>
    let _ ← expect .colon "':' after 'else'"
    return .block (← block limit item)

/-- What is done otherwise, if there is an `else`. -/
def otherwise (limit : Nat) (item next : Reading (Stmt Unit)) : Reading (Option (Stmt Unit)) := do
  if ← acceptElse then return some (← alternative limit item next) else return none

/-- A branch behind `if`, with as many `else if` as follow. -/
def branch (limit : Nat) (item : Reading (Stmt Unit)) : Nat → Reading (Stmt Unit)
  | 0 => abandon (.expected "expression")
  | fuel + 1 => do
    let condition ← expression limit
    let _ ← expect .colon "':' after if condition"
    let whenTrue ← block limit item
    let whenFalse ← otherwise limit item (branch limit item fuel)
    return .branch condition (.block whenTrue) whenFalse

/-- A loop behind `while`. -/
def loop (fuel : Nat) (item : Reading (Stmt Unit)) : Reading (Stmt Unit) := do
  let condition ← expression fuel
  let _ ← expect .colon "':' after while condition"
  let body ← block fuel item
  return .loop condition (.block body)

/-! ## Statements -/

/-- First tokens that tell what statement follows. -/
def introduces (k : Kind) : Bool :=
  k == .classWord || k == .functionWord || k == .setWord || k == .ifWord || k == .printWord ||
    k == .returnWord || k == .whileWord || k == .colon

/-- The statement that the token `t`, which has been consumed, introduces. -/
def statementFrom (fuel : Nat) (item : Reading (Stmt Unit)) (t : Token) : Reading (Stmt Unit) := do
  match t.kind with
  | .classWord => classDef fuel item
  | .functionWord => return .define (← routine fuel item "function")
  | .ifWord => branch fuel item fuel
  | .printWord => return .print (← expression fuel)
  | .returnWord => givenBack fuel t
  | .whileWord => loop fuel item
  | .colon => return .block (← block fuel item)
  | _ => assignment fuel

/-- A statement behind its indentation; `item` reads the statements of its blocks. -/
def statement (fuel : Nat) (item : Reading (Stmt Unit)) : Reading (Stmt Unit) := do
  match ← accept? introduces with
  | none => assignment fuel
  | some t => statementFrom fuel item t

/-- A statement on a line of its own. -/
def statementLine (fuel : Nat) (item : Reading (Stmt Unit)) : Reading (Stmt Unit) := do
  beginLine
  let stmt ← statement fuel item
  endStatement
  return stmt

/-- A statement of at most `fuel` tokens; one with an error becomes a statement that does nothing. -/
def declaration : Nat → Cursor → EStateM.Result Abandoned Cursor (Stmt Unit)
  | 0, s => .ok .nothing s
  | fuel + 1, s => recovering (statementLine (fuel + 1) (declaration fuel)) .nothing s

/-- All statements of a text of at most `fuel` tokens. -/
def program (fuel : Nat) : Reading (List (Stmt Unit)) :=
  items (some <$> declaration fuel) fuel

end Offside.Reading

namespace Offside

/-- What reading the tokens of a text yields. -/
structure Program where
  statements : List (Stmt Unit)
  reports : List Report

/-- The number of parameters and arguments that are allowed unless said otherwise. -/
def Program.argumentLimit : Nat := 255

/-- Reads the statements of a text. -/
def Program.read (argumentLimit : Nat) (stream : Token.Stream) : Program :=
  match Reading.program stream.tokens.length (.start argumentLimit stream) with
  | .ok statements s => ⟨statements, s.reports⟩
  | .error _ s => ⟨[], s.reports⟩

end Offside
