import Offside.Binding

/-!
# The table of bindings

The bindings of a program as a table: one row per reference that is bound to a scope, in the order in which
the walk binds them.  The same trees without any binding stand for a program whose names are all left to
the global frame.
-/

set_option autoImplicit false

namespace Offside.Binding

/-- What kind of node a row belongs to. -/
inductive Row.Node where
  | reference
  | assignment
  | thisRef
  | superRef
  deriving DecidableEq, Repr

/-- A row: a node, the token that names it and its distance. -/
structure Row where
  node : Row.Node
  token : Token
  distance : Nat
  deriving Repr

/-- The row of a node, if it has a distance. -/
def row (node : Row.Node) (token : Token) : Distance → List Row
  | none => []
  | some d => [⟨node, token, d⟩]

mutual

/-- The rows of an expression. -/
def exprRows : Expr Distance → List Row
  | .literal _ => []
  | .group inner => exprRows inner
  | .unary _ operand => exprRows operand
  | .binary left _ right => exprRows left ++ exprRows right
  | .logical left _ right => exprRows left ++ exprRows right
  | .name token site => row .reference token site
  | .setField object _ value => exprRows value ++ exprRows object
  | .getField object _ => exprRows object
  | .call callee _ arguments => exprRows callee ++ exprsRows arguments
  | .thisRef keyword site => row .thisRef keyword site
  | .superRef keyword _ site => row .superRef keyword site
  | .unknown => []

/-- The rows of several expressions. -/
def exprsRows : List (Expr Distance) → List Row
  | [] => []
  | e :: es => exprRows e ++ exprsRows es

end

/-- The rows of an expression that may be absent. -/
def exprRows? : Option (Expr Distance) → List Row
  | none => []
  | some e => exprRows e

/-- The rows of a superclass. -/
def superclassRows : Option (Token × Distance) → List Row
  | none => []
  | some (t, site) => row .reference t site

mutual

/-- The rows of a statement. -/
def stmtRows : Stmt Distance → List Row
  | .block body => stmtsRows body
  | .define r => routineRows r
  | .classDef _ parent methods => superclassRows parent ++ routinesRows methods
  | .evaluate e => exprRows e
  | .branch condition whenTrue none => exprRows condition ++ stmtRows whenTrue
  | .branch condition whenTrue (some whenFalse) =>
    exprRows condition ++ stmtRows whenTrue ++ stmtRows whenFalse
  | .print e => exprRows e
  | .giveBack _ value => exprRows? value
  | .assign name value site => exprRows? value ++ row .assignment name site
  | .loop condition body => exprRows condition ++ stmtRows body
  | .unknown => []

/-- The rows of several statements. -/
def stmtsRows : List (Stmt Distance) → List Row
  | [] => []
  | s :: ss => stmtRows s ++ stmtsRows ss

/-- The rows of a routine. -/
def routineRows : Routine Distance → List Row
  | .mk _ _ body _ => stmtsRows body

/-- The rows of several routines. -/
def routinesRows : List (Routine Distance) → List Row
  | [] => []
  | r :: rs => routineRows r ++ routinesRows rs

end

/-! ## Programs without bindings -/

mutual

/-- An expression with all names left to the global frame. -/
def unboundExpr : Expr Unit → Expr Distance
  | .literal value => .literal value
  | .group inner => .group (unboundExpr inner)
  | .unary operator operand => .unary operator (unboundExpr operand)
  | .binary left operator right => .binary (unboundExpr left) operator (unboundExpr right)
  | .logical left operator right => .logical (unboundExpr left) operator (unboundExpr right)
  | .name token _ => .name token none
  | .setField object field value => .setField (unboundExpr object) field (unboundExpr value)
  | .getField object field => .getField (unboundExpr object) field
  | .call callee paren arguments => .call (unboundExpr callee) paren (unboundExprs arguments)
  | .thisRef keyword _ => .thisRef keyword none
  | .superRef keyword method _ => .superRef keyword method none
  | .unknown => .unknown

/-- Several expressions with all names left to the global frame. -/
def unboundExprs : List (Expr Unit) → List (Expr Distance)
  | [] => []
  | e :: es => unboundExpr e :: unboundExprs es

end

mutual

/-- A statement with all names left to the global frame. -/
def unboundStmt : Stmt Unit → Stmt Distance
  | .block body => .block (unboundStmts body)
  | .define r => .define (unboundRoutine r)
  | .classDef name parent methods =>
    .classDef name (parent.map fun p => (p.1, none)) (unboundRoutines methods)
  | .evaluate e => .evaluate (unboundExpr e)
  | .branch condition whenTrue none => .branch (unboundExpr condition) (unboundStmt whenTrue) none
  | .branch condition whenTrue (some whenFalse) =>
    .branch (unboundExpr condition) (unboundStmt whenTrue) (some (unboundStmt whenFalse))
  | .print e => .print (unboundExpr e)
  | .giveBack keyword value => .giveBack keyword (value.map unboundExpr)
  | .assign name value _ => .assign name (value.map unboundExpr) none
  | .loop condition body => .loop (unboundExpr condition) (unboundStmt body)
  | .unknown => .unknown

/-- Several statements with all names left to the global frame. -/
def unboundStmts : List (Stmt Unit) → List (Stmt Distance)
  | [] => []
  | s :: ss => unboundStmt s :: unboundStmts ss

/-- A routine with all names left to the global frame. -/
def unboundRoutine : Routine Unit → Routine Distance
  | .mk name params body returnType => .mk name params (unboundStmts body) returnType

/-- Several routines with all names left to the global frame. -/
def unboundRoutines : List (Routine Unit) → List (Routine Distance)
  | [] => []
  | r :: rs => unboundRoutine r :: unboundRoutines rs

end

end Offside.Binding
