import Offside.Machine.Native
import Offside.Machine.Operators

/-!
# Running programs

Expressions are evaluated and statements executed in the current frame.  Each is given as one step over
the steps for its parts; `Run.evaluate` and `Run.execute` tie the knot under a limit on nesting, so that
unbounded recursion ends in a fault and every run is finite.

* `Run.evaluate`, `Run.execute` — expressions and statements under a limit on nesting;
* `Machine.interpret` — a whole program; an error of the program is reported and ends it.
-/

set_option autoImplicit false

namespace Offside

open Binding (Distance)

/-- Bounds on a run. -/
structure Limits where
  /-- How deep evaluations and executions may be nested. -/
  nesting : Nat
  /-- How often a loop may be repeated. -/
  repetitions : Nat
  deriving DecidableEq, Repr

/-- The bounds under which programs run: deep enough for a thousand nested calls, and loops without a bound
that could be reached. -/
def Limits.standard : Limits := ⟨10000, 1000000000000000000⟩

namespace Run

/-! ## Lists of expressions and statements -/

/-- Evaluates expressions from left to right. -/
def evaluateAll (evaluate : Expr Distance → Run Value) : List (Expr Distance) → Run (List Value)
  | [] => return []
  | e :: es => do
    let first ← evaluate e
    let more ← evaluateAll evaluate es
    return first :: more

/-- Executes statements until one of them ends the enclosing call. -/
def executeAll (execute : Stmt Distance → Run Flow) : List (Stmt Distance) → Run Flow
  | [] => return .next
  | s :: ss => do
    match ← execute s with
    | .next => executeAll execute ss
    | .back value => return .back value

/-- Executes statements in a new frame enclosed by the current one. -/
def executeBlock (execute : Stmt Distance → Run Flow) (body : List (Stmt Distance)) : Run Flow := do
  let frame ← newFrame (← currentFrame)
  inFrame frame (executeAll execute body)

/-- Repeats `body` while `test` holds. -/
def repeatWhile (test : Run Bool) (body : Run Flow) : Nat → Run Flow
  | 0 => throw .exhausted
  | limit + 1 => do
    if ← test then
      match ← body with
      | .next => repeatWhile test body limit
      | .back value => return .back value
    else
      return .next

/-! ## Names -/

/-- The value of a variable, or of `this`. -/
def lookUp (t : Token) : Distance → Run Value
  | some distance => do readAt (← currentFrame) distance t.lexeme
  | none => readGlobal t

/-- Puts the value of `set` where its name is bound. -/
def assign (name : String) (value : Value) : Distance → Run Unit
  | some distance => defineAt distance name value
  | none => define name value

/-! ## Calls -/

/-- Binds parameters to arguments in a frame. -/
def bindParams (frame : FrameId) : List Token → List Value → Run Unit
  | param :: params, argument :: arguments => do
    defineIn frame param.lexeme argument
    bindParams frame params arguments
  | _, _ => return ()

/-- A method with `this` bound. -/
def bindMethod (method : Closure) (this : Value) : Run Closure := do
  let frame ← newFrame method.frame
  defineIn frame "this" this
  let serial ← newSerial
  return { method with serial := serial, frame := frame }

/-- Calls a function.  An initializer gives back its instance, whatever its body does. -/
def callClosure (execute : Stmt Distance → Run Flow) (f : Closure) (arguments : List Value) :
    Run Value := do
  let frame ← newFrame f.frame
  bindParams frame f.routine.params arguments
  let flow ← inFrame frame (executeAll execute f.routine.body)
  if f.isInitializer then
    readAt f.frame 0 "this"
  else
    match flow with
    | .back value => return value
    | .next => return .null

/-- Makes an instance of a class and sets it up. -/
def callClass (execute : Stmt Distance → Run Flow) (c : Class) (arguments : List Value) :
    Run Value := do
  let id ← newInstance
  let made := Value.object id c
  match c.initializer? with
  | some method =>
    let bound ← bindMethod method made
    let _ ← callClosure execute bound arguments
    return made
  | none => return made

/-- Calls a native; its refusal becomes an error at the closing parenthesis. -/
def callNative (paren : Token) (f : Native) (arguments : List Value) : Run Value := do
  match ← f.apply arguments with
  | .ok value => return value
  | .error text => fail paren (.nativeFailure f.name text)

/-- Calls a value with arguments of the right number. -/
def call (execute : Stmt Distance → Run Flow) (paren : Token) (callee : Value)
    (arguments : List Value) : Run Value :=
  match callee with
  | .function f => callClosure execute f arguments
  | .native _ f => callNative paren f arguments
  | .classValue c => callClass execute c arguments
  | _ => fail paren .notCallable

/-! ## Fields and methods -/

/-- A field of an instance, or else a method bound to it. -/
def getField (field : Token) (target : Value) : Run Value :=
  match target with
  | .object id c => do
    match ← readField? id field.lexeme with
    | some value => return value
    | none =>
      match c.findMethod? field.lexeme with
      | some method => return .function (← bindMethod method target)
      | none => fail field (.undefinedProperty field.lexeme)
  | _ => fail field .noProperties

/-- A method of the superclass, bound to `this`.  The frame that binds `this` is the one inside the frame
that binds `super`. -/
def getSuper (method : Token) : Distance → Run Value
  | none => throw .missingName
  | some distance => do
    let frame ← currentFrame
    let parent ← readAt frame distance "super"
    let this ← readAt frame (distance - 1) "this"
    match parent with
    | .classValue c =>
      match c.findMethod? method.lexeme with
      | some f => return .function (← bindMethod f this)
      | none => fail method (.undefinedProperty method.lexeme)
    | _ => throw .missingFrame

/-! ## Classes -/

/-- The methods of a class declared in a frame; of two methods of one name the later one counts. -/
def makeMethods (frame : FrameId) : List (Routine Distance) → Bindings Closure → Run (Bindings Closure)
  | [], methods => return methods
  | r :: rs, methods => do
    let serial ← newSerial
    makeMethods frame rs (methods.put r.name.lexeme ⟨serial, r, frame, r.isInitializer⟩)

/-- The value of the superclass of a declaration, which must be a class. -/
def superclassOf (parent : Option (Token × Distance)) (evaluate : Expr Distance → Run Value) :
    Run (Option Class) :=
  match parent with
  | none => return none
  | some (t, site) => do
    match ← evaluate (.name t site) with
    | .classValue c => return some c
    | _ => fail t .superclassNotClass

/-- The frame in which methods are closed: one that binds `super` if there is a superclass. -/
def methodFrame (parent : Option Class) : Run FrameId := do
  let here ← currentFrame
  match parent with
  | none => return here
  | some c =>
    let frame ← newFrame here
    defineIn frame "super" (.classValue c)
    return frame

/-- Declares a class.  Its name is bound to null until the class is complete. -/
def defineClass (evaluate : Expr Distance → Run Value) (name : Token)
    (parent : Option (Token × Distance)) (methods : List (Routine Distance)) : Run Unit := do
  let parentClass ← superclassOf parent evaluate
  define name.lexeme .null
  let frame ← methodFrame parentClass
  let table ← makeMethods frame methods []
  let serial ← newSerial
  let ancestors := match parentClass with
    | none => []
    | some c => c.lineage
  define name.lexeme (.classValue ⟨⟨serial, name.lexeme, table⟩, ancestors⟩)

/-! ## One step -/

/-- Evaluates a call: the callee, then the number of arguments is checked, then the arguments. -/
def evaluateCall (evaluate : Expr Distance → Run Value) (execute : Stmt Distance → Run Flow)
    (callee : Expr Distance) (paren : Token) (arguments : List (Expr Distance)) : Run Value := do
  let f ← evaluate callee
  match f.arity? with
  | none => fail paren .notCallable
  | some arity =>
    if arguments.length = arity then
      let values ← evaluateAll evaluate arguments
      call execute paren f values
    else
      fail paren (.argumentCount arity arguments.length)

/-- Evaluates an expression, given how to evaluate and execute its parts. -/
def evaluateStep (evaluate : Expr Distance → Run Value) (execute : Stmt Distance → Run Flow) :
    Expr Distance → Run Value
  | .literal value => return .ofLiteral value
  | .group inner => evaluate inner
  | .unary operator operand => do unary operator (← evaluate operand)
  | .binary left operator right => do
    let l ← evaluate left
    let r ← evaluate right
    binary operator l r
  | .logical left operator right => do
    let l ← evaluate left
    if l.isTruthy == (operator.kind == .orWord) then return l else evaluate right
  | .name token site => lookUp token site
  | .setField object field value => do
    match ← evaluate object with
    | .object id _ =>
      let v ← evaluate value
      writeField id field.lexeme v
      return v
    | _ => fail field .noFields
  | .getField object field => do getField field (← evaluate object)
  | .call callee paren arguments => evaluateCall evaluate execute callee paren arguments
  | .thisRef keyword site => lookUp keyword site
  | .superRef _ method site => getSuper method site
  | .unknown => throw (.unknown .expression)

/-- The value of an expression that may be absent. -/
def evaluate? (evaluate : Expr Distance → Run Value) : Option (Expr Distance) → Run Value
  | none => return .null
  | some e => evaluate e

/-- Executes a statement, given how to evaluate and execute its parts. -/
def executeStep (limits : Limits) (evaluate : Expr Distance → Run Value)
    (execute : Stmt Distance → Run Flow) : Stmt Distance → Run Flow
  | .block body => executeBlock execute body
  | .define r => do
    let serial ← newSerial
    define r.name.lexeme (.function ⟨serial, r, ← currentFrame, false⟩)
    return .next
  | .classDef name parent methods => do
    defineClass evaluate name parent methods
    return .next
  | .evaluate e => do
    let _ ← evaluate e
    return .next
  | .branch condition whenTrue whenFalse => do
    if (← evaluate condition).isTruthy then
      execute whenTrue
    else
      match whenFalse with
      | some s => execute s
      | none => return .next
  | .print e => do
    printLine (← evaluate e).display
    return .next
  | .giveBack _ value => return .back (← evaluate? evaluate value)
  | .assign name value site => do
    let v ← evaluate? evaluate value
    assign name.lexeme v site
    return .next
  | .loop condition body =>
    repeatWhile (return (← evaluate condition).isTruthy) (execute body) limits.repetitions
  | .unknown => throw (.unknown .statement)

/-! ## Under a limit on nesting -/

mutual

/-- Evaluates an expression, nested at most `depth` deep. -/
def evaluate (limits : Limits) : Nat → Expr Distance → Run Value
  | 0, _ => throw .overflow
  | depth + 1, e => evaluateStep (evaluate limits depth) (execute limits depth) e

/-- Executes a statement, nested at most `depth` deep. -/
def execute (limits : Limits) : Nat → Stmt Distance → Run Flow
  | 0, _ => throw .overflow
  | depth + 1, s => executeStep limits (evaluate limits depth) (execute limits depth) s

end

/-- Executes the statements of a program; what they give back is dropped. -/
def program (limits : Limits) : List (Stmt Distance) → Run Unit
  | [] => return ()
  | s :: ss => do
    let _ ← execute limits limits.nesting s
    program limits ss

end Run

/-- How a program ended: as it should, with an error to report, or with a fault that the program cannot
cause once its names are bound. -/
structure Machine.Ending where
  machine : Machine
  reports : List Report
  escaped : Option Fault

/-- Runs a program.  An error of the program is reported; unbounded nesting is reported without a line and
leaves the machine at the global frame. -/
def Machine.interpret (limits : Limits) (program : List (Stmt Binding.Distance)) (m : Machine) :
    Machine.Ending :=
  match Run.program limits program m with
  | .ok _ after => ⟨after, [], none⟩
  | .error (.error line problem) after => ⟨after, [Report.whileRunning line problem], none⟩
  | .error .overflow after =>
    ⟨{ after with current := Machine.globalFrame }, [Report.whileRunning none .stackOverflow], none⟩
  | .error fault after => ⟨after, [], some fault⟩

end Offside
