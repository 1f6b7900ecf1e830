import Offside.Token

/-!
# Programs as trees

Expressions and statements.  The parameter `β` is what the places that refer to a binding carry: nothing
in a tree as it is read (`Expr Unit`), the distance to the scope of the binding in a tree whose names have
been bound (`Expr (Option Nat)`).

The constructors `Expr.unknown` and `Stmt.unknown` are nodes of no known kind, which only hand-built trees
contain.
-/

set_option autoImplicit false

namespace Offside

/-- An expression. -/
inductive Expr (β : Type) where
  | literal (value : Literal)
  | group (inner : Expr β)
  | unary (operator : Token) (operand : Expr β)
  | binary (left : Expr β) (operator : Token) (right : Expr β)
  /-- Evaluates its right side only if the left side does not decide the result. -/
  | logical (left : Expr β) (operator : Token) (right : Expr β)
  | name (token : Token) (site : β)
  | setField (object : Expr β) (field : Token) (value : Expr β)
  | getField (object : Expr β) (field : Token)
  | call (callee : Expr β) (paren : Token) (arguments : List (Expr β))
  | thisRef (keyword : Token) (site : β)
  | superRef (keyword method : Token) (site : β)
  | unknown
  deriving Inhabited

mutual

/-- A statement. -/
inductive Stmt (β : Type) where
  | block (body : List (Stmt β))
  | define (routine : Routine β)
  | classDef (name : Token) (superclass : Option (Token × β)) (methods : List (Routine β))
  | evaluate (expr : Expr β)
  | branch (condition : Expr β) (whenTrue : Stmt β) (whenFalse : Option (Stmt β))
  | print (expr : Expr β)
  | giveBack (keyword : Token) (value : Option (Expr β))
  /-- Declares or assigns a variable; which of the two is decided when names are bound. -/
  | assign (name : Token) (value : Option (Expr β)) (site : β)
  | loop (condition : Expr β) (body : Stmt β)
  | unknown

/-- A function or method.  The return type is read and not checked. -/
inductive Routine (β : Type) where
  | mk (name : Token) (params : List Token) (body : List (Stmt β)) (returnType : Option Token)

end

instance (β : Type) : Inhabited (Stmt β) := ⟨.unknown⟩

namespace Routine

variable {β : Type}

/-- The token that names the routine. -/
def name : Routine β → Token
  | mk name _ _ _ => name

/-- The parameters in order. -/
def params : Routine β → List Token
  | mk _ params _ _ => params

/-- The statements of the body. -/
def body : Routine β → List (Stmt β)
  | mk _ _ body _ => body

/-- The declared return type. -/
def returnType : Routine β → Option Token
  | mk _ _ _ returnType => returnType

/-- The name under which a method makes new instances. -/
def initializerName : String := "init"

/-- Methods of this name set up a new instance. -/
def isInitializer (r : Routine β) : Bool :=
  r.name.lexeme == initializerName

end Routine

/-- The statement that does nothing; it stands for one that could not be read. -/
def Stmt.nothing {β : Type} : Stmt β :=
  .evaluate (.literal .null)

end Offside
