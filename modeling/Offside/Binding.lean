import Offside.Report
import Offside.Syntax

/-!
# Binding names

Before a program runs, every reference is bound to the scope that holds its binding, given as the number
of scopes to go outward; a reference found in no scope is left to the global frame.  The walk keeps the
stack of open scopes, in which a name may be declared before its value is ready.

`set name to value` assigns if the name is bound in an open scope, or if it is a global name and some scope
is open; the binding then lives one step past the outermost scope.  Otherwise it declares the name in the
innermost scope.

The walk reports misplaced `return`, `this` and `super`, classes that inherit from themselves and variables
read in their own initializer, and goes on.  Only a node of unknown kind stops it.

* `Binding.program` — binds a program;
* `Binding.Row` — the entries of the table that lists the bindings of a program.
-/

set_option autoImplicit false

namespace Offside.Binding

/-- How many scopes outward a binding lives; `none` for the global frame. -/
abbrev Distance := Option Nat

/-- Declared names, the latest first, each with whether its value is ready. -/
abbrev Scope := List (String × Bool)

/-- The routine around a place. -/
inductive Body where
  | topLevel
  | function
  | method
  | initializer
  deriving DecidableEq, Repr

/-- The class around a place. -/
inductive Owner where
  | noClass
  | baseClass
  | subclass
  deriving DecidableEq, Repr

/-- What surrounds a place, besides its scopes. -/
structure Context where
  globals : List String
  body : Body
  owner : Owner
  deriving Repr

/-- The state of the walk: open scopes, innermost first, and what has been reported. -/
structure Walk where
  scopes : List Scope
  reports : List Report
  deriving Repr

/-- A node of unknown kind. -/
inductive Unknown where
  | statement
  | expression
  deriving DecidableEq, Repr

/-- A step of the walk. -/
abbrev Binder := EStateM Unknown Walk

/-! ## Scopes -/

/-- Whether a scope declares a name. -/
def Scope.declares (scope : Scope) (name : String) : Bool :=
  scope.any fun entry => entry.1 == name

/-- How many scopes outward a name is declared. -/
def distance? (scopes : List Scope) (name : String) : Option Nat :=
  scopes.findIdx? fun scope => Scope.declares scope name

/-- Enters a name into the innermost scope, if there is one. -/
def enter (name : String) (ready : Bool) : List Scope → List Scope
  | [] => []
  | scope :: outer => ((name, ready) :: scope) :: outer

/-- Whether the innermost scope declares a name whose value is not ready. -/
def isPending (scopes : List Scope) (name : String) : Bool :=
  scopes.head?.bind (List.lookup name) == some false

/-- Where `set` puts a name: the distance to an existing binding, or `none` for a declaration. -/
def target? (globals : List String) (scopes : List Scope) (name : String) : Distance :=
  match distance? scopes name with
  | some d => some d
  | none => if !scopes.isEmpty && globals.contains name then some scopes.length else none

/-! ## Steps -/

/-- Reports a problem at a token. -/
def complain (t : Token) (problem : Problem) : Binder Unit :=
  modify fun w => { w with reports := w.reports ++ [Report.atToken t problem] }

/-- Enters a name into the innermost scope. -/
def declare (name : String) (ready : Bool) : Binder Unit :=
  modify fun w => { w with scopes := enter name ready w.scopes }

/-- The distance of a name. -/
def locate (name : String) : Binder Distance :=
  return distance? (← get).scopes name

/-- The distance of a variable that is read. -/
def locateVariable (t : Token) : Binder Distance := do
  if isPending (← get).scopes t.lexeme then complain t .ownInitializer
  locate t.lexeme

/-- Runs a step inside one more scope. -/
def inScope {α : Type} (scope : Scope) (step : Binder α) : Binder α := do
  modify fun w => { w with scopes := scope :: w.scopes }
  let a ← step
  modify fun w => { w with scopes := w.scopes.tail }
  return a

/-- The scope of a call: the parameters, all with their values. -/
def paramScope (params : List Token) : Scope :=
  (params.map fun t => (t.lexeme, true)).reverse

/-! ## Expressions -/

/-- Reports a misplaced `super`. -/
def checkSuper (ctx : Context) (keyword : Token) : Binder Unit :=
  match ctx.owner with
  | .noClass => complain keyword .superOutsideClass
  | .baseClass => complain keyword .superWithoutSuperclass
  | .subclass => pure ()

mutual

/-- Binds the names in an expression.  The value of a field assignment comes before its object. -/
def expr (ctx : Context) : Expr Unit → Binder (Expr Distance)
  | .literal value => return .literal value
  | .group inner => return .group (← expr ctx inner)
  | .unary operator operand => return .unary operator (← expr ctx operand)
  | .binary left operator right => do
    let l ← expr ctx left
    let r ← expr ctx right
    return .binary l operator r
  | .logical left operator right => do
    let l ← expr ctx left
    let r ← expr ctx right
    return .logical l operator r
  | .name token _ => return .name token (← locateVariable token)
  | .setField object field value => do
    let v ← expr ctx value
    let o ← expr ctx object
    return .setField o field v
  | .getField object field => return .getField (← expr ctx object) field
  | .call callee paren arguments => do
    let c ← expr ctx callee
    let args ← exprs ctx arguments
    return .call c paren args
  | .thisRef keyword _ => do
    if ctx.owner = .noClass then
      complain keyword .thisOutsideClass
      return .thisRef keyword none
    else
      return .thisRef keyword (← locate "this")
  | .superRef keyword method _ => do
    checkSuper ctx keyword
    return .superRef keyword method (← locate "super")
  | .unknown => throw .expression

/-- Binds the names in several expressions, from left to right. -/
def exprs (ctx : Context) : List (Expr Unit) → Binder (List (Expr Distance))
  | [] => return []
  | e :: es => do
    let first ← expr ctx e
    let more ← exprs ctx es
    return first :: more

end

/-- Binds the names in an expression that may be absent. -/
def expr? (ctx : Context) : Option (Expr Unit) → Binder (Option (Expr Distance))
  | none => return none
  | some e => return some (← expr ctx e)

/-! ## Statements -/

/-- Reports a misplaced `return`. -/
def checkReturn (ctx : Context) (keyword : Token) (hasValue : Bool) : Binder Unit := do
  if ctx.body = .topLevel then complain keyword .returnAtTopLevel
  if hasValue && ctx.body = .initializer then complain keyword .returnFromInitializer

/-- Binds the superclass of the class `name`. -/
def superclass (name : Token) : Option (Token × Unit) → Binder (Option (Token × Distance))
  | none => return none
  | some (t, _) => do
    if t.lexeme == name.lexeme then complain t .inheritsFromItself
    return some (t, ← locateVariable t)

/-- The scopes around the methods of a class, for a class with or without a superclass. -/
def inClass {α : Type} (derived : Bool) (step : Binder α) : Binder α :=
  let inner := inScope [("this", true)] step
  if derived then inScope [("super", true)] inner else inner

/-- Declares or assigns a name; a declared name is pending while its value is walked. -/
def assign (ctx : Context) (name : Token) (value : Option (Expr Unit)) : Binder (Stmt Distance) := do
  match target? ctx.globals (← get).scopes name.lexeme with
  | some d =>
    let v ← expr? ctx value
    return .assign name v (some d)
  | none =>
    declare name.lexeme false
    let v ← expr? ctx value
    declare name.lexeme true
    return .assign name v none

/-- The kind of body that a method has. -/
def methodBody (r : Routine Unit) : Body :=
  if r.isInitializer then .initializer else .method

mutual

/-- Binds the names in a statement. -/
def stmt (ctx : Context) : Stmt Unit → Binder (Stmt Distance)
  | .block body => return .block (← inScope [] (stmts ctx body))
  | .define r => do
    declare r.name.lexeme true
    return .define (← routine { ctx with body := .function } r)
  | .classDef name parent methods => do
    declare name.lexeme true
    let parent' ← superclass name parent
    let owner := if parent.isSome then Owner.subclass else .baseClass
    let methods' ← inClass parent.isSome (routines { ctx with owner := owner } methods)
    return .classDef name parent' methods'
  | .evaluate e => return .evaluate (← expr ctx e)
  | .branch condition whenTrue none => do
    let c ← expr ctx condition
    let t ← stmt ctx whenTrue
    return .branch c t none
  | .branch condition whenTrue (some whenFalse) => do
    let c ← expr ctx condition
    let t ← stmt ctx whenTrue
    let f ← stmt ctx whenFalse
    return .branch c t (some f)
  | .print e => return .print (← expr ctx e)
  | .giveBack keyword value => do
    checkReturn ctx keyword value.isSome
    return .giveBack keyword (← expr? ctx value)
  | .assign name value _ => assign ctx name value
  | .loop condition body => do
    let c ← expr ctx condition
    let b ← stmt ctx body
    return .loop c b
  | .unknown => throw .statement

/-- Binds the names in several statements, in order. -/
def stmts (ctx : Context) : List (Stmt Unit) → Binder (List (Stmt Distance))
  | [] => return []
  | s :: ss => do
    let first ← stmt ctx s
    let more ← stmts ctx ss
    return first :: more

/-- Binds the names in a routine whose kind of body is that of the context. -/
def routine (ctx : Context) : Routine Unit → Binder (Routine Distance)
  | .mk name params body returnType => do
    let b ← inScope (paramScope params) (stmts ctx body)
    return .mk name params b returnType

/-- Binds the names in the methods of a class. -/
def routines (ctx : Context) : List (Routine Unit) → Binder (List (Routine Distance))
  | [] => return []
  | r :: rs => do
    let first ← routine { ctx with body := methodBody r } r
    let more ← routines ctx rs
    return first :: more

end

/-! ## Programs -/

/-- The name that a statement binds in the scope in which it stands. -/
def boundName? {β : Type} : Stmt β → Option String
  | .assign name _ _ => some name.lexeme
  | .define r => some r.name.lexeme
  | .classDef name _ _ => some name.lexeme
  | _ => none

/-- The names that a program binds in the global frame. -/
def topLevelNames {β : Type} (statements : List (Stmt β)) : List String :=
  statements.filterMap boundName?

/-- The names that count as global: those known before and those of the program. -/
def globalNames (known : List String) (statements : List (Stmt Unit)) : List String :=
  known ++ topLevelNames statements

/-- The context of the statements of a program. -/
def Context.top (globals : List String) : Context :=
  ⟨globals, .topLevel, .noClass⟩

/-- What binding a program yields: the program with its distances, or the unknown node that stopped the
walk, and what was reported. -/
structure Outcome where
  result : Except Unknown (List (Stmt Distance))
  reports : List Report

/-- Binds the names in a program, given the names already bound in the global frame. -/
def program (known : List String) (statements : List (Stmt Unit)) : Outcome :=
  match stmts (.top (globalNames known statements)) statements ⟨[], []⟩ with
  | .ok bound w => ⟨.ok bound, w.reports⟩
  | .error e w => ⟨.error e, w.reports⟩

end Offside.Binding
