import Offside.Syntax

/-!
# Trees on one line

A tree is shown on one line in parenthesised form, with an operator in front of its operands.
-/

set_option autoImplicit false

namespace Offside

variable {β : Type}

/-- Texts separated by single spaces. -/
def spaced (texts : List String) : String :=
  " ".intercalate texts

mutual

/-- An expression on one line. -/
def Expr.tree : Expr β → String
  | .literal value => value.tree
  | .group inner => "(group " ++ inner.tree ++ ")"
  | .unary operator operand => "(" ++ operator.lexeme ++ " " ++ operand.tree ++ ")"
  | .binary left operator right =>
    "(" ++ operator.lexeme ++ " " ++ left.tree ++ " " ++ right.tree ++ ")"
  | .logical left operator right =>
    "(" ++ operator.lexeme ++ " " ++ left.tree ++ " " ++ right.tree ++ ")"
  | .name token _ => token.lexeme
  | .setField object field value =>
    "(set " ++ object.tree ++ "." ++ field.lexeme ++ " " ++ value.tree ++ ")"
  | .getField object field => object.tree ++ "." ++ field.lexeme
  | .call callee _ arguments => "(call " ++ spaced (callee.tree :: Expr.trees arguments) ++ ")"
  | .thisRef _ _ => "this"
  | .superRef _ method _ => "super." ++ method.lexeme
  | .unknown => "<node Expr>"

/-- The one-line forms of several expressions. -/
def Expr.trees : List (Expr β) → List String
  | [] => []
  | e :: es => e.tree :: Expr.trees es

end

mutual

/-- A statement on one line. -/
def Stmt.tree : Stmt β → String
  | .block body => "(block " ++ spaced (Stmt.trees body) ++ ")"
  | .define routine => routine.tree
  | .classDef name superclass methods =>
    let parent := match superclass with
      | some (token, _) => " :: " ++ token.lexeme
      | none => ""
    "(class " ++ name.lexeme ++ parent ++ " " ++ spaced (Routine.trees methods) ++ ")"
  | .evaluate expr => "(; " ++ expr.tree ++ ")"
  | .branch condition whenTrue none => "(if " ++ condition.tree ++ " " ++ whenTrue.tree ++ ")"
  | .branch condition whenTrue (some whenFalse) =>
    "(if " ++ condition.tree ++ " " ++ whenTrue.tree ++ " " ++ whenFalse.tree ++ ")"
  | .print expr => "(print " ++ expr.tree ++ ")"
  | .giveBack _ none => "(return)"
  | .giveBack _ (some value) => "(return " ++ value.tree ++ ")"
  | .assign name none _ => "(set " ++ name.lexeme ++ " null)"
  | .assign name (some value) _ => "(set " ++ name.lexeme ++ " " ++ value.tree ++ ")"
  | .loop condition body => "(while " ++ condition.tree ++ " " ++ body.tree ++ ")"
  | .unknown => "<node Stmt>"

/-- The one-line forms of several statements. -/
def Stmt.trees : List (Stmt β) → List String
  | [] => []
  | s :: ss => s.tree :: Stmt.trees ss

/-- A routine on one line. -/
def Routine.tree : Routine β → String
  | .mk name params body _ =>
    "(function " ++ name.lexeme ++ " (" ++ spaced (params.map Token.lexeme) ++ ") " ++
      spaced (Stmt.trees body) ++ ")"

/-- The one-line forms of several routines. -/
def Routine.trees : List (Routine β) → List String
  | [] => []
  | r :: rs => r.tree :: Routine.trees rs

end

end Offside
