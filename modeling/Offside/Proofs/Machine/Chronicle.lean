import Offside.Machine.Evaluation
import Offside.Proofs.Binding.Supers

/-!
# A chronicle of a run

A run is accompanied by notes, in the order of what happens: declarations of classes that have a superclass,
methods that are bound, calls of functions, and evaluations of `super`.  Each note of the first three kinds
tells which frame was made for it, so that a chain of frames can be traced back to what it came from.

The steps here are those of the machine, with the notes added.  Without its notes a chronicle is the run.

* `Note`, `Told` — notes, and a machine together with the notes so far;
* `Chronicle.evaluate`, `Chronicle.execute`, `Chronicle.program` — runs that take notes;
* `Chronicle.Erases`, `Chronicle.erases_program` — a chronicle does what the run does.
-/

set_option autoImplicit false

namespace Offside

open Binding (Distance)

/-! ## Notes -/

/-- What happens in a run, as far as `super` is concerned. -/
inductive Note where
  /-- The declaration of a class with a superclass is executed, from a machine.  Its methods are closed over
  the frame. -/
  | declared (declaration : Binding.Declaration) (start : Machine) (frame : FrameId)
  /-- A method is bound to a value.  The bound method is closed over the frame. -/
  | bound (method : Closure) (this : Value) (frame : FrameId)
  /-- A function is called.  Its body is executed in the frame. -/
  | called (f : Closure) (frame : FrameId)
  /-- A `super` expression is evaluated, on a machine. -/
  | sent (e : Expr Distance) (m : Machine)

/-- A machine, and what has been noted so far. -/
structure Told where
  machine : Machine
  notes : List Note

/-- A step of a run that takes notes. -/
abbrev Chronicle := EStateM Fault Told

namespace Chronicle

/-! ## Steps with notes -/

/-- A step of which nothing is noted. -/
def quietly {α : Type} (step : Run α) : Chronicle α :=
  fun t =>
    match step t.machine with
    | .ok a m => .ok a { t with machine := m }
    | .error e m => .error e { t with machine := m }

/-- Takes a note. -/
def note (n : Note) : Chronicle Unit :=
  fun t => .ok () { t with notes := t.notes ++ [n] }

/-- The machine as it is. -/
def machine : Chronicle Machine :=
  fun t => .ok t.machine t

/-- Runs a step in a frame and comes back to the current one, as `Run.inFrame` does. -/
def inFrame {α : Type} (frame : FrameId) (step : Chronicle α) : Chronicle α :=
  fun t =>
    let before := t.machine.current
    match step { t with machine := { t.machine with current := frame } } with
    | .ok a t' => .ok a { t' with machine := { t'.machine with current := before } }
    | .error e t' => .error e { t' with machine := { t'.machine with current := before } }

/-- Evaluates expressions from left to right. -/
def evaluateAll (evaluate : Expr Distance → Chronicle Value) : List (Expr Distance) → Chronicle (List Value)
  | [] => return []
  | e :: es => do
    let first ← evaluate e
    let more ← evaluateAll evaluate es
    return first :: more

/-- Executes statements until one of them ends the enclosing call. -/
def executeAll (execute : Stmt Distance → Chronicle Flow) : List (Stmt Distance) → Chronicle Flow
  | [] => return .next
  | s :: ss => do
    match ← execute s with
    | .next => executeAll execute ss
    | .back value => return .back value

/-- Executes statements in a new frame enclosed by the current one. -/
def executeBlock (execute : Stmt Distance → Chronicle Flow) (body : List (Stmt Distance)) : Chronicle Flow := do
  let frame ← quietly (Run.newFrame (← quietly Run.currentFrame))
  inFrame frame (executeAll execute body)

/-- Repeats `body` while `test` holds. -/
def repeatWhile (test : Chronicle Bool) (body : Chronicle Flow) : Nat → Chronicle Flow
  | 0 => throw .exhausted
  | limit + 1 => do
    if ← test then
      match ← body with
      | .next => repeatWhile test body limit
      | .back value => return .back value
    else
      return .next

/-- A method with `this` bound, which is noted. -/
def bindMethod (method : Closure) (this : Value) : Chronicle Closure := do
  let frame ← quietly (Run.newFrame method.frame)
  quietly (Run.defineIn frame "this" this)
  note (.bound method this frame)
  let serial ← quietly Run.newSerial
  return { method with serial := serial, frame := frame }

/-- Calls a function, which is noted. -/
def callClosure (execute : Stmt Distance → Chronicle Flow) (f : Closure) (arguments : List Value) :
    Chronicle Value := do
  let frame ← quietly (Run.newFrame f.frame)
  note (.called f frame)
  quietly (Run.bindParams frame f.routine.params arguments)
  let flow ← inFrame frame (executeAll execute f.routine.body)
  if f.isInitializer then
    quietly (Run.readAt f.frame 0 "this")
  else
    match flow with
    | .back value => return value
    | .next => return .null

/-- Makes an instance of a class and sets it up. -/
def callClass (execute : Stmt Distance → Chronicle Flow) (c : Class) (arguments : List Value) :
    Chronicle Value := do
  let id ← quietly Run.newInstance
  let made := Value.object id c
  match c.initializer? with
  | some method =>
    let bound ← bindMethod method made
    let _ ← callClosure execute bound arguments
    return made
  | none => return made

/-- Calls a value with arguments of the right number. -/
def call (execute : Stmt Distance → Chronicle Flow) (paren : Token) (callee : Value) (arguments : List Value) :
    Chronicle Value :=
  match callee with
  | .function f => callClosure execute f arguments
  | .native _ f => quietly (Run.callNative paren f arguments)
  | .classValue c => callClass execute c arguments
  | _ => quietly (Run.fail paren .notCallable)

/-- A field of an instance, or else a method bound to it. -/
def getField (field : Token) (target : Value) : Chronicle Value :=
  match target with
  | .object id c => do
    match ← quietly (Run.readField? id field.lexeme) with
    | some value => return value
    | none =>
      match c.findMethod? field.lexeme with
      | some method => return .function (← bindMethod method target)
      | none => quietly (Run.fail field (.undefinedProperty field.lexeme))
  | _ => quietly (Run.fail field .noProperties)

/-- A method of the superclass, bound to `this`. -/
def getSuper (method : Token) : Distance → Chronicle Value
  | none => throw .missingName
  | some distance => do
    let frame ← quietly Run.currentFrame
    let parent ← quietly (Run.readAt frame distance "super")
    let this ← quietly (Run.readAt frame (distance - 1) "this")
    match parent with
    | .classValue c =>
      match c.findMethod? method.lexeme with
      | some f => return .function (← bindMethod f this)
      | none => quietly (Run.fail method (.undefinedProperty method.lexeme))
    | _ => throw .missingFrame

/-- The value of the superclass of a declaration, which must be a class. -/
def superclassOf (parent : Option (Token × Distance)) (evaluate : Expr Distance → Chronicle Value) :
    Chronicle (Option Class) :=
  match parent with
  | none => return none
  | some (t, site) => do
    match ← evaluate (.name t site) with
    | .classValue c => return some c
    | _ => quietly (Run.fail t .superclassNotClass)

/-- Declares a class, which is noted if there is a superclass. -/
def defineClass (evaluate : Expr Distance → Chronicle Value) (name : Token)
    (parent : Option (Token × Distance)) (methods : List (Routine Distance)) : Chronicle Unit := do
  let start ← machine
  let parentClass ← superclassOf parent evaluate
  quietly (Run.define name.lexeme .null)
  let frame ← quietly (Run.methodFrame parentClass)
  match parent with
  | none => pure ()
  | some p => note (.declared ⟨name, p, methods⟩ start frame)
  let table ← quietly (Run.makeMethods frame methods [])
  let serial ← quietly Run.newSerial
  let ancestors := match parentClass with
    | none => []
    | some c => c.lineage
  quietly (Run.define name.lexeme (.classValue ⟨⟨serial, name.lexeme, table⟩, ancestors⟩))

/-- Evaluates a call: the callee, then the number of arguments is checked, then the arguments. -/
def evaluateCall (evaluate : Expr Distance → Chronicle Value) (execute : Stmt Distance → Chronicle Flow)
    (callee : Expr Distance) (paren : Token) (arguments : List (Expr Distance)) : Chronicle Value := do
  let f ← evaluate callee
  match f.arity? with
  | none => quietly (Run.fail paren .notCallable)
  | some arity =>
    if arguments.length = arity then
      let values ← evaluateAll evaluate arguments
      call execute paren f values
    else
      quietly (Run.fail paren (.argumentCount arity arguments.length))

/-- Evaluates an expression, given how to evaluate and execute its parts.  Every `super` is noted. -/
def evaluateStep (evaluate : Expr Distance → Chronicle Value) (execute : Stmt Distance → Chronicle Flow) :
    Expr Distance → Chronicle Value
  | .literal value => return .ofLiteral value
  | .group inner => evaluate inner
  | .unary operator operand => do quietly (Run.unary operator (← evaluate operand))
  | .binary left operator right => do
    let l ← evaluate left
    let r ← evaluate right
    quietly (Run.binary operator l r)
  | .logical left operator right => do
    let l ← evaluate left
    if l.isTruthy == (operator.kind == .orWord) then return l else evaluate right
  | .name token site => quietly (Run.lookUp token site)
  | .setField object field value => do
    match ← evaluate object with
    | .object id _ =>
      let v ← evaluate value
      quietly (Run.writeField id field.lexeme v)
      return v
    | _ => quietly (Run.fail field .noFields)
  | .getField object field => do getField field (← evaluate object)
  | .call callee paren arguments => evaluateCall evaluate execute callee paren arguments
  | .thisRef keyword site => quietly (Run.lookUp keyword site)
  | .superRef keyword method site => do
    note (.sent (.superRef keyword method site) (← machine))
    getSuper method site
  | .unknown => throw (.unknown .expression)

/-- The value of an expression that may be absent. -/
def evaluate? (evaluate : Expr Distance → Chronicle Value) : Option (Expr Distance) → Chronicle Value
  | none => return .null
  | some e => evaluate e

/-- Executes a statement, given how to evaluate and execute its parts. -/
def executeStep (limits : Limits) (evaluate : Expr Distance → Chronicle Value)
    (execute : Stmt Distance → Chronicle Flow) : Stmt Distance → Chronicle Flow
  | .block body => executeBlock execute body
  | .define r => do
    let serial ← quietly Run.newSerial
    quietly (Run.define r.name.lexeme (.function ⟨serial, r, ← quietly Run.currentFrame, false⟩))
    return .next
  | .classDef name parent methods => do
    defineClass evaluate name parent methods
    return .next
  | .evaluate e => do
    let _ ← evaluate e
    return .next
  | .branch condition whenTrue whenFalse => do
    if (← evaluate condition).isTruthy then
      execute whenTrue
    else
      match whenFalse with
      | some s => execute s
      | none => return .next
  | .print e => do
    quietly (Run.printLine (← evaluate e).display)
    return .next
  | .giveBack _ value => return .back (← evaluate? evaluate value)
  | .assign name value site => do
    let v ← evaluate? evaluate value
    quietly (Run.assign name.lexeme v site)
    return .next
  | .loop condition body =>
    repeatWhile (return (← evaluate condition).isTruthy) (execute body) limits.repetitions
  | .unknown => throw (.unknown .statement)

mutual

/-- Evaluates an expression, nested at most `depth` deep. -/
def evaluate (limits : Limits) : Nat → Expr Distance → Chronicle Value
  | 0, _ => throw .overflow
  | depth + 1, e => evaluateStep (evaluate limits depth) (execute limits depth) e

/-- Executes a statement, nested at most `depth` deep. -/
def execute (limits : Limits) : Nat → Stmt Distance → Chronicle Flow
  | 0, _ => throw .overflow
  | depth + 1, s => executeStep limits (evaluate limits depth) (execute limits depth) s

end

/-- Executes the statements of a program. -/
def program (limits : Limits) : List (Stmt Distance) → Chronicle Unit
  | [] => return ()
  | s :: ss => do
    let _ ← execute limits limits.nesting s
    program limits ss

/-- The machine and the notes that a step leaves, however it ends. -/
def told {α : Type} : EStateM.Result Fault Told α → Told
  | .ok _ t => t
  | .error _ t => t

/-! ## Without the notes -/

/-- The end of a step without the notes. -/
def erased {α : Type} : EStateM.Result Fault Told α → EStateM.Result Fault Machine α
  | .ok a t => .ok a t.machine
  | .error e t => .error e t.machine

/-- Without its notes the step `p` does what `q` does. -/
def Erases {α : Type} (p : Chronicle α) (q : Run α) : Prop :=
  ∀ t, erased (p t) = q t.machine

section Erasing

variable {α β : Type} {p : Chronicle α} {q : Run α}

theorem erases_pure (a : α) : Erases (pure a) (pure a) :=
  fun _ => rfl

theorem erases_throw (e : Fault) : Erases (throw e : Chronicle α) (throw e) :=
  fun _ => rfl

theorem erases_quietly (q : Run α) : Erases (quietly q) q := by
  intro t
  unfold quietly
  cases q t.machine <;> rfl

theorem Erases.bind {f : α → Chronicle β} {g : α → Run β} (h : Erases p q) (hf : ∀ a, Erases (f a) (g a)) :
    Erases (p >>= f) (q >>= g) := by
  intro t
  have ht := h t
  cases hp : p t with
  | ok a t' =>
    rw [hp] at ht
    rw [Step.bind_of_ok hp, Step.bind_of_ok ht.symm]
    exact hf a t'
  | error e t' =>
    rw [hp] at ht
    rw [Step.bind_of_error hp, Step.bind_of_error ht.symm]
    rfl

/-- A note changes nothing. -/
theorem Erases.note {f : Unit → Chronicle α} (n : Note) (h : Erases (f ()) q) : Erases (note n >>= f) q :=
  fun t => h { t with notes := t.notes ++ [n] }

/-- Nor does a look at the machine. -/
theorem Erases.machine {f : Machine → Chronicle α} (h : ∀ m, Erases (f m) q) : Erases (machine >>= f) q :=
  fun t => h t.machine t

theorem Erases.inFrame (frame : FrameId) (h : Erases p q) : Erases (inFrame frame p) (Run.inFrame frame q) := by
  intro t
  have ht := h { t with machine := { t.machine with current := frame } }
  cases hp : p { t with machine := { t.machine with current := frame } } with
  | ok a t' =>
    rw [hp] at ht
    simp only [Chronicle.inFrame, Run.inFrame, hp, ← ht, erased]
  | error e t' =>
    rw [hp] at ht
    simp only [Chronicle.inFrame, Run.inFrame, hp, ← ht, erased]

end Erasing

section Steps

variable {evaluate : Expr Distance → Chronicle Value} {evaluate' : Expr Distance → Run Value}
  {execute : Stmt Distance → Chronicle Flow} {execute' : Stmt Distance → Run Flow}

theorem erases_evaluateAll (heval : ∀ e, Erases (evaluate e) (evaluate' e)) (es : List (Expr Distance)) :
    Erases (evaluateAll evaluate es) (Run.evaluateAll evaluate' es) := by
  induction es with
  | nil => exact erases_pure _
  | cons e es ih => exact .bind (heval e) fun _ => .bind ih fun _ => erases_pure _

theorem erases_executeAll (hexec : ∀ s, Erases (execute s) (execute' s)) (ss : List (Stmt Distance)) :
    Erases (executeAll execute ss) (Run.executeAll execute' ss) := by
  induction ss with
  | nil => exact erases_pure _
  | cons s ss ih =>
    refine .bind (hexec s) fun flow => ?_
    cases flow with
    | next => exact ih
    | back value => exact erases_pure _

theorem erases_executeBlock (hexec : ∀ s, Erases (execute s) (execute' s)) (body : List (Stmt Distance)) :
    Erases (executeBlock execute body) (Run.executeBlock execute' body) := by
  refine .bind (erases_quietly _) fun here => .bind (erases_quietly _) fun frame => ?_
  exact (erases_executeAll hexec body).inFrame frame

theorem erases_repeatWhile {test : Chronicle Bool} {test' : Run Bool} {body : Chronicle Flow}
    {body' : Run Flow} (htest : Erases test test') (hbody : Erases body body') (limit : Nat) :
    Erases (repeatWhile test body limit) (Run.repeatWhile test' body' limit) := by
  induction limit with
  | zero => exact erases_throw _
  | succ limit ih =>
    refine .bind htest fun b => ?_
    cases b with
    | false => exact erases_pure _
    | true =>
      refine .bind hbody fun flow => ?_
      cases flow with
      | next => exact ih
      | back value => exact erases_pure _

theorem erases_bindMethod (method : Closure) (this : Value) :
    Erases (bindMethod method this) (Run.bindMethod method this) := by
  refine .bind (erases_quietly _) fun frame => .bind (erases_quietly _) fun _ => .note _ ?_
  exact .bind (erases_quietly _) fun serial => erases_pure _

theorem erases_callClosure (hexec : ∀ s, Erases (execute s) (execute' s)) (f : Closure)
    (arguments : List Value) :
    Erases (callClosure execute f arguments) (Run.callClosure execute' f arguments) := by
  refine .bind (erases_quietly _) fun frame => .note _ ?_
  refine .bind (erases_quietly _) fun _ => ?_
  refine .bind ((erases_executeAll hexec _).inFrame frame) fun flow => ?_
  split
  · exact erases_quietly _
  · cases flow with
    | next => exact erases_pure _
    | back value => exact erases_pure _

theorem erases_callClass (hexec : ∀ s, Erases (execute s) (execute' s)) (c : Class) (arguments : List Value) :
    Erases (callClass execute c arguments) (Run.callClass execute' c arguments) := by
  refine .bind (erases_quietly _) fun id => ?_
  cases c.initializer? with
  | none => exact erases_pure _
  | some method =>
    refine .bind (erases_bindMethod method _) fun bound => ?_
    exact .bind (erases_callClosure hexec bound arguments) fun _ => erases_pure _

theorem erases_call (hexec : ∀ s, Erases (execute s) (execute' s)) (paren : Token) (callee : Value)
    (arguments : List Value) :
    Erases (call execute paren callee arguments) (Run.call execute' paren callee arguments) := by
  cases callee with
  | function f => exact erases_callClosure hexec f arguments
  | native serial f => exact erases_quietly _
  | classValue c => exact erases_callClass hexec c arguments
  | _ => exact erases_quietly (Run.fail paren .notCallable)

theorem erases_getField (field : Token) (target : Value) :
    Erases (getField field target) (Run.getField field target) := by
  cases target with
  | object id c =>
    refine .bind (erases_quietly _) fun found => ?_
    cases found with
    | some value => exact erases_pure _
    | none =>
      cases c.findMethod? field.lexeme with
      | none => exact erases_quietly _
      | some method => exact .bind (erases_bindMethod method _) fun _ => erases_pure _
  | _ => exact erases_quietly (Run.fail field .noProperties)

theorem erases_getSuper (method : Token) (site : Distance) :
    Erases (getSuper method site) (Run.getSuper method site) := by
  cases site with
  | none => exact erases_throw _
  | some distance =>
    refine .bind (erases_quietly _) fun frame => .bind (erases_quietly _) fun parent => ?_
    refine .bind (erases_quietly _) fun this => ?_
    cases parent with
    | classValue c =>
      cases hmethod : c.findMethod? method.lexeme with
      | none =>
        simp only [hmethod]
        exact erases_quietly _
      | some f =>
        simp only [hmethod]
        exact .bind (erases_bindMethod f this) fun _ => erases_pure _
    | _ => exact erases_throw _

theorem erases_superclassOf (heval : ∀ e, Erases (evaluate e) (evaluate' e))
    (parent : Option (Token × Distance)) :
    Erases (superclassOf parent evaluate) (Run.superclassOf parent evaluate') := by
  cases parent with
  | none => exact erases_pure _
  | some p =>
    refine .bind (heval _) fun v => ?_
    cases v with
    | classValue c => exact erases_pure _
    | _ => exact erases_quietly _

theorem erases_defineClass (heval : ∀ e, Erases (evaluate e) (evaluate' e)) (name : Token)
    (parent : Option (Token × Distance)) (methods : List (Routine Distance)) :
    Erases (defineClass evaluate name parent methods) (Run.defineClass evaluate' name parent methods) := by
  refine .machine fun start => .bind (erases_superclassOf heval parent) fun parentClass => ?_
  refine .bind (erases_quietly _) fun _ => .bind (erases_quietly _) fun frame => ?_
  cases parent with
  | none =>
    refine .bind (erases_quietly _) fun table => .bind (erases_quietly _) fun serial => ?_
    exact erases_quietly _
  | some p =>
    refine .note _ ?_
    refine .bind (erases_quietly _) fun table => .bind (erases_quietly _) fun serial => ?_
    exact erases_quietly _

theorem erases_evaluateCall (heval : ∀ e, Erases (evaluate e) (evaluate' e))
    (hexec : ∀ s, Erases (execute s) (execute' s)) (callee : Expr Distance) (paren : Token)
    (arguments : List (Expr Distance)) :
    Erases (evaluateCall evaluate execute callee paren arguments)
      (Run.evaluateCall evaluate' execute' callee paren arguments) := by
  refine .bind (heval callee) fun f => ?_
  cases f.arity? with
  | none => exact erases_quietly _
  | some arity =>
    simp only
    split
    · refine .bind (erases_evaluateAll heval arguments) fun values => ?_
      exact erases_call hexec paren f values
    · exact erases_quietly _

theorem erases_evaluateStep (heval : ∀ e, Erases (evaluate e) (evaluate' e))
    (hexec : ∀ s, Erases (execute s) (execute' s)) (e : Expr Distance) :
    Erases (evaluateStep evaluate execute e) (Run.evaluateStep evaluate' execute' e) := by
  cases e with
  | literal value => exact erases_pure _
  | group inner => exact heval inner
  | unary operator operand => exact .bind (heval operand) fun v => erases_quietly _
  | binary left operator right => exact .bind (heval left) fun l => .bind (heval right) fun r => erases_quietly _
  | logical left operator right =>
    refine .bind (heval left) fun l => ?_
    split
    · exact erases_pure _
    · exact heval right
  | name token site => exact erases_quietly _
  | setField object field value =>
    refine .bind (heval object) fun target => ?_
    cases target with
    | object id c =>
      exact .bind (heval value) fun v => .bind (erases_quietly _) fun _ => erases_pure _
    | _ => exact erases_quietly _
  | getField object field => exact .bind (heval object) fun target => erases_getField field target
  | call callee paren arguments => exact erases_evaluateCall heval hexec callee paren arguments
  | thisRef keyword site => exact erases_quietly _
  | superRef keyword method site => exact .machine fun m => .note _ (erases_getSuper method site)
  | unknown => exact erases_throw _

theorem erases_evaluate? (heval : ∀ e, Erases (evaluate e) (evaluate' e)) (e : Option (Expr Distance)) :
    Erases (evaluate? evaluate e) (Run.evaluate? evaluate' e) := by
  cases e with
  | none => exact erases_pure _
  | some e => exact heval e

theorem erases_executeStep (limits : Limits) (heval : ∀ e, Erases (evaluate e) (evaluate' e))
    (hexec : ∀ s, Erases (execute s) (execute' s)) (s : Stmt Distance) :
    Erases (executeStep limits evaluate execute s) (Run.executeStep limits evaluate' execute' s) := by
  cases s with
  | block body => exact erases_executeBlock hexec body
  | define r =>
    refine .bind (erases_quietly _) fun serial => .bind (erases_quietly _) fun here => ?_
    exact .bind (erases_quietly _) fun _ => erases_pure _
  | classDef name parent methods =>
    exact .bind (erases_defineClass heval name parent methods) fun _ => erases_pure _
  | evaluate e => exact .bind (heval e) fun _ => erases_pure _
  | branch condition whenTrue whenFalse =>
    refine .bind (heval condition) fun v => ?_
    split
    · exact hexec whenTrue
    · cases whenFalse with
      | none => exact erases_pure _
      | some whenFalse => exact hexec whenFalse
  | print e => exact .bind (heval e) fun v => .bind (erases_quietly _) fun _ => erases_pure _
  | giveBack keyword value => exact .bind (erases_evaluate? heval value) fun v => erases_pure _
  | assign name value site =>
    exact .bind (erases_evaluate? heval value) fun v => .bind (erases_quietly _) fun _ => erases_pure _
  | loop condition body =>
    exact erases_repeatWhile (.bind (heval condition) fun v => erases_pure _) (hexec body) _
  | unknown => exact erases_throw _

end Steps

theorem erases_depth (limits : Limits) (depth : Nat) :
    (∀ e, Erases (evaluate limits depth e) (Run.evaluate limits depth e)) ∧
      ∀ s, Erases (execute limits depth s) (Run.execute limits depth s) := by
  induction depth with
  | zero => exact ⟨fun _ => erases_throw _, fun _ => erases_throw _⟩
  | succ depth ih =>
    exact ⟨fun e => erases_evaluateStep ih.1 ih.2 e, fun s => erases_executeStep limits ih.1 ih.2 s⟩

/-- **A chronicle does what the run does.** -/
theorem erases_program (limits : Limits) (ss : List (Stmt Distance)) :
    Erases (program limits ss) (Run.program limits ss) := by
  induction ss with
  | nil => exact erases_pure _
  | cons s ss ih => exact .bind ((erases_depth limits limits.nesting).2 s) fun _ => ih

end Chronicle
end Offside
