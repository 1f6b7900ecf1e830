import Offside.Machine.Evaluation
import Offside.Proofs.Binding.Visits

/-!
# A tour of a run

A run comes to the nodes of its program, and to those of earlier programs whose functions are called.  A tour is a
run that knows where it is: it comes to every node along the path of the node, and every function that it makes
remembers the path of its routine.  Equal nodes are told apart by their paths, whether they stand in one program or
in two.

The steps here are those of the machine, with paths handed on.  Without the account of where it has been, a tour is
the run.

* `Arrival`, `Toured` — where a run has come to, and a machine together with the account so far;
* `Tour.evaluate`, `Tour.execute`, `Tour.program` — runs that know where they are;
* `Machine.Agrees`, `Machine.AgreesAt` — the frames at a node agree with the scopes at its visit.
-/

set_option autoImplicit false

namespace Offside

open Binding (Distance Node Path Visit)

/-! ## Accounts -/

/-- A node to which a run comes, along its path, and the machine at that moment. -/
structure Arrival where
  path : Path
  node : Node
  machine : Machine

/-- A machine with an account of how it came about. -/
structure Toured where
  machine : Machine
  /-- The paths of the routines from which functions were made, by serial number. -/
  origins : List (Nat × Path)
  arrivals : List Arrival

/-- A step of a run that knows where it is. -/
abbrev Tour := EStateM Fault Toured

namespace Tour

/-- A step of the machine, of which no account is given. -/
def lift {α : Type} (step : Run α) : Tour α :=
  fun t =>
    match step t.machine with
    | .ok a m => .ok a { t with machine := m }
    | .error e m => .error e { t with machine := m }

/-- Comes to a node. -/
def arrive (path : Path) (node : Node) : Tour Unit :=
  fun t => .ok () { t with arrivals := t.arrivals ++ [⟨path, node, t.machine⟩] }

/-- Takes a new serial number for a function that is made from the routine at the path. -/
def newFunction (path : Path) : Tour Nat :=
  fun t => .ok t.machine.nextSerial
    { t with
      machine := { t.machine with nextSerial := t.machine.nextSerial + 1 }
      origins := (t.machine.nextSerial, path) :: t.origins }

/-- The path of the routine from which a function was made. -/
def originOf (f : Closure) : Tour Path :=
  fun t => .ok ((t.origins.lookup f.serial).getD []) t

/-- Runs a step in a frame and comes back to the current one, as `Run.inFrame` does. -/
def inFrame {α : Type} (frame : FrameId) (step : Tour α) : Tour α :=
  fun t =>
    let before := t.machine.current
    match step { t with machine := { t.machine with current := frame } } with
    | .ok a t' => .ok a { t' with machine := { t'.machine with current := before } }
    | .error e t' => .error e { t' with machine := { t'.machine with current := before } }

/-! ## Parts -/

/-- Evaluates expressions from left to right, which are parts from number `i` on. -/
def evaluateAll (evaluate : Path → Expr Distance → Tour Value) (path : Path) :
    Nat → List (Expr Distance) → Tour (List Value)
  | _, [] => return []
  | i, e :: es => do
    let first ← evaluate (i :: path) e
    let more ← evaluateAll evaluate path (i + 1) es
    return first :: more

/-- Executes statements, which are parts from number `i` on, until one of them ends the enclosing call. -/
def executeAll (execute : Path → Stmt Distance → Tour Flow) (path : Path) :
    Nat → List (Stmt Distance) → Tour Flow
  | _, [] => return .next
  | i, s :: ss => do
    match ← execute (i :: path) s with
    | .next => executeAll execute path (i + 1) ss
    | .back value => return .back value

/-- Executes statements in a new frame enclosed by the current one. -/
def executeBlock (execute : Path → Stmt Distance → Tour Flow) (path : Path) (body : List (Stmt Distance)) :
    Tour Flow := do
  let frame ← lift (Run.newFrame (← lift Run.currentFrame))
  inFrame frame (executeAll execute path 0 body)

/-- Repeats `body` while `test` holds. -/
def repeatWhile (test : Tour Bool) (body : Tour Flow) : Nat → Tour Flow
  | 0 => throw .exhausted
  | limit + 1 => do
    if ← test then
      match ← body with
      | .next => repeatWhile test body limit
      | .back value => return .back value
    else
      return .next

/-! ## Calls -/

/-- A method with `this` bound, made from the same routine. -/
def bindMethod (method : Closure) (this : Value) : Tour Closure := do
  let frame ← lift (Run.newFrame method.frame)
  lift (Run.defineIn frame "this" this)
  let serial ← newFunction (← originOf method)
  return { method with serial := serial, frame := frame }

/-- Calls a function: its body stands where the function was made. -/
def callClosure (execute : Path → Stmt Distance → Tour Flow) (f : Closure) (arguments : List Value) :
    Tour Value := do
  let frame ← lift (Run.newFrame f.frame)
  lift (Run.bindParams frame f.routine.params arguments)
  let path ← originOf f
  let flow ← inFrame frame (executeAll execute path 0 f.routine.body)
  if f.isInitializer then
    lift (Run.readAt f.frame 0 "this")
  else
    match flow with
    | .back value => return value
    | .next => return .null

/-- Makes an instance of a class and sets it up. -/
def callClass (execute : Path → Stmt Distance → Tour Flow) (c : Class) (arguments : List Value) :
    Tour Value := do
  let id ← lift Run.newInstance
  let made := Value.object id c
  match c.initializer? with
  | some method =>
    let bound ← bindMethod method made
    let _ ← callClosure execute bound arguments
    return made
  | none => return made

/-- Calls a value with arguments of the right number. -/
def call (execute : Path → Stmt Distance → Tour Flow) (paren : Token) (callee : Value)
    (arguments : List Value) : Tour Value :=
  match callee with
  | .function f => callClosure execute f arguments
  | .native _ f => lift (Run.callNative paren f arguments)
  | .classValue c => callClass execute c arguments
  | _ => lift (Run.fail paren .notCallable)

/-! ## Fields and classes -/

/-- A field of an instance, or else a method bound to it. -/
def getField (field : Token) (target : Value) : Tour Value :=
  match target with
  | .object id c => do
    match ← lift (Run.readField? id field.lexeme) with
    | some value => return value
    | none =>
      match c.findMethod? field.lexeme with
      | some method => return .function (← bindMethod method target)
      | none => lift (Run.fail field (.undefinedProperty field.lexeme))
  | _ => lift (Run.fail field .noProperties)

/-- A method of the superclass, bound to `this`. -/
def getSuper (method : Token) : Distance → Tour Value
  | none => throw .missingName
  | some distance => do
    let frame ← lift Run.currentFrame
    let parent ← lift (Run.readAt frame distance "super")
    let this ← lift (Run.readAt frame (distance - 1) "this")
    match parent with
    | .classValue c =>
      match c.findMethod? method.lexeme with
      | some f => return .function (← bindMethod f this)
      | none => lift (Run.fail method (.undefinedProperty method.lexeme))
    | _ => throw .missingFrame

/-- The methods of a class, whose routines are parts from number `i` on. -/
def makeMethods (path : Path) (frame : FrameId) :
    Nat → List (Routine Distance) → Bindings Closure → Tour (Bindings Closure)
  | _, [], methods => return methods
  | i, r :: rs, methods => do
    let serial ← newFunction (i :: path)
    makeMethods path frame (i + 1) rs (methods.put r.name.lexeme ⟨serial, r, frame, r.isInitializer⟩)

/-- The value of the superclass of a declaration, which must be a class. -/
def superclassOf (parent : Option (Token × Distance)) (evaluate : Expr Distance → Tour Value) :
    Tour (Option Class) :=
  match parent with
  | none => return none
  | some (t, site) => do
    match ← evaluate (.name t site) with
    | .classValue c => return some c
    | _ => lift (Run.fail t .superclassNotClass)

/-- Declares a class. -/
def defineClass (evaluate : Path → Expr Distance → Tour Value) (path : Path) (name : Token)
    (parent : Option (Token × Distance)) (methods : List (Routine Distance)) : Tour Unit := do
  let parentClass ← superclassOf parent (evaluate (0 :: path))
  lift (Run.define name.lexeme .null)
  let frame ← lift (Run.methodFrame parentClass)
  let table ← makeMethods path frame 1 methods []
  let serial ← lift Run.newSerial
  let ancestors := match parentClass with
    | none => []
    | some c => c.lineage
  lift (Run.define name.lexeme (.classValue ⟨⟨serial, name.lexeme, table⟩, ancestors⟩))

/-! ## One step -/

/-- Evaluates a call: the callee, then the number of arguments is checked, then the arguments. -/
def evaluateCall (evaluate : Path → Expr Distance → Tour Value) (execute : Path → Stmt Distance → Tour Flow)
    (path : Path) (callee : Expr Distance) (paren : Token) (arguments : List (Expr Distance)) : Tour Value := do
  let f ← evaluate (0 :: path) callee
  match f.arity? with
  | none => lift (Run.fail paren .notCallable)
  | some arity =>
    if arguments.length = arity then
      let values ← evaluateAll evaluate path 1 arguments
      call execute paren f values
    else
      lift (Run.fail paren (.argumentCount arity arguments.length))

/-- Evaluates the expression at a path, given how to evaluate and execute its parts. -/
def evaluateStep (evaluate : Path → Expr Distance → Tour Value) (execute : Path → Stmt Distance → Tour Flow)
    (path : Path) : Expr Distance → Tour Value
  | .literal value => return .ofLiteral value
  | .group inner => evaluate (0 :: path) inner
  | .unary operator operand => do lift (Run.unary operator (← evaluate (0 :: path) operand))
  | .binary left operator right => do
    let l ← evaluate (0 :: path) left
    let r ← evaluate (1 :: path) right
    lift (Run.binary operator l r)
  | .logical left operator right => do
    let l ← evaluate (0 :: path) left
    if l.isTruthy == (operator.kind == .orWord) then return l else evaluate (1 :: path) right
  | .name token site => lift (Run.lookUp token site)
  | .setField object field value => do
    match ← evaluate (0 :: path) object with
    | .object id _ =>
      let v ← evaluate (1 :: path) value
      lift (Run.writeField id field.lexeme v)
      return v
    | _ => lift (Run.fail field .noFields)
  | .getField object field => do getField field (← evaluate (0 :: path) object)
  | .call callee paren arguments => evaluateCall evaluate execute path callee paren arguments
  | .thisRef keyword site => lift (Run.lookUp keyword site)
  | .superRef _ method site => getSuper method site
  | .unknown => throw (.unknown .expression)

/-- The value of an expression that may be absent. -/
def evaluate? (evaluate : Expr Distance → Tour Value) : Option (Expr Distance) → Tour Value
  | none => return .null
  | some e => evaluate e

/-- Executes the statement at a path, given how to evaluate and execute its parts. -/
def executeStep (limits : Limits) (evaluate : Path → Expr Distance → Tour Value)
    (execute : Path → Stmt Distance → Tour Flow) (path : Path) : Stmt Distance → Tour Flow
  | .block body => executeBlock execute path body
  | .define r => do
    let serial ← newFunction path
    lift (Run.define r.name.lexeme (.function ⟨serial, r, ← lift Run.currentFrame, false⟩))
    return .next
  | .classDef name parent methods => do
    defineClass evaluate path name parent methods
    return .next
  | .evaluate e => do
    let _ ← evaluate (0 :: path) e
    return .next
  | .branch condition whenTrue whenFalse => do
    if (← evaluate (0 :: path) condition).isTruthy then
      execute (1 :: path) whenTrue
    else
      match whenFalse with
      | some s => execute (2 :: path) s
      | none => return .next
  | .print e => do
    lift (Run.printLine (← evaluate (0 :: path) e).display)
    return .next
  | .giveBack _ value => return .back (← evaluate? (evaluate (0 :: path)) value)
  | .assign name value site => do
    let v ← evaluate? (evaluate (0 :: path)) value
    lift (Run.assign name.lexeme v site)
    return .next
  | .loop condition body =>
    repeatWhile (return (← evaluate (0 :: path) condition).isTruthy) (execute (1 :: path) body) limits.repetitions
  | .unknown => throw (.unknown .statement)

mutual

/-- Comes to an expression and evaluates it, nested at most `depth` deep. -/
def evaluate (limits : Limits) : Nat → Path → Expr Distance → Tour Value
  | 0, path, e => do
    arrive path (.expression e)
    throw .overflow
  | depth + 1, path, e => do
    arrive path (.expression e)
    evaluateStep (evaluate limits depth) (execute limits depth) path e

/-- Comes to a statement and executes it, nested at most `depth` deep. -/
def execute (limits : Limits) : Nat → Path → Stmt Distance → Tour Flow
  | 0, path, s => do
    arrive path (.statement s)
    throw .overflow
  | depth + 1, path, s => do
    arrive path (.statement s)
    executeStep limits (evaluate limits depth) (execute limits depth) path s

end

/-- Executes the statements of a program, which are its parts from number `i` on. -/
def program (limits : Limits) (path : Path) : Nat → List (Stmt Distance) → Tour Unit
  | _, [] => return ()
  | i, s :: ss => do
    let _ ← execute limits limits.nesting (i :: path) s
    program limits path (i + 1) ss

/-! ## Without the account -/

/-- The end of a step without the account. -/
def erased {α : Type} : EStateM.Result Fault Toured α → EStateM.Result Fault Machine α
  | .ok a t => .ok a t.machine
  | .error e t => .error e t.machine

/-- The machine and the account that a step leaves, however it ends. -/
def toured {α : Type} : EStateM.Result Fault Toured α → Toured
  | .ok _ t => t
  | .error _ t => t

end Tour

/-! ## Agreement at a node -/

/-- What a node finds along the chain of the current frame.  A reference with a distance finds its name that
many links up.  `super` has a distance, finds a class there and an instance one link nearer.  An assignment
with a distance finds a frame, the global one if the distance is the number of open scopes. -/
def Machine.Finds (m : Machine) (depth : Nat) : Node → Prop
  | .expression (.name token (some d)) => ∃ v, m.frames.getAt m.current d token.lexeme = .ok v
  | .expression (.thisRef keyword (some d)) => ∃ v, m.frames.getAt m.current d keyword.lexeme = .ok v
  | .expression (.superRef _ _ site) => ∃ d, site = some d ∧ 1 ≤ d ∧
      (∃ c, m.frames.getAt m.current d "super" = .ok (.classValue c)) ∧
      ∃ id c, m.frames.getAt m.current (d - 1) "this" = .ok (.object id c)
  | .statement (.assign _ _ (some d)) => ∃ place, m.frames.ancestor? d m.current = some place ∧
      (d = depth → place = Machine.globalFrame)
  | _ => True

/-- The current frame is as many links below the global frame as scopes were open at the visit, and the node
finds what it refers to. -/
structure Machine.Agrees (m : Machine) (visit : Visit) : Prop where
  links : m.frames.ancestor? visit.depth m.current = some Machine.globalFrame
  outermost : m.frames.ancestor? (visit.depth + 1) m.current = none
  finds : m.Finds visit.depth visit.node

/-- The machine agrees with the visit of the node at the end of the path. -/
def Machine.AgreesAt (V : List Visit) (path : Path) (node : Node) (m : Machine) : Prop :=
  ∃ visit ∈ V, visit.path = path ∧ visit.node = node ∧ m.Agrees visit

end Offside
