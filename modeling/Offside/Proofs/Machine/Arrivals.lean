import Offside.Proofs.Machine.Tour
import Offside.Proofs.Steps

/-!
# Arrivals are not lost

Each call of the located evaluator comes to its node first of all, and what a tour has come to stays in the account,
however the steps that follow end.  So the account of a tour tells of every evaluation and execution of the run.

* `Tour.Recalls` — steps that lose no arrival, with one lemma for each helper of the evaluator;
* `Tour.ComesTo` — steps that come to a node, and lose no arrival;
* `Tour.comesTo_depth` — evaluation and execution at every depth.
-/

set_option autoImplicit false

namespace Offside.Tour

open Binding (Distance Node Path)
open Step (Ends Extends extends_pure extends_throw)

/-- The step loses no arrival. -/
abbrev Recalls {α : Type} (p : Tour α) : Prop :=
  Extends Toured.arrivals p

/-- The step comes to the node first of all, and loses no arrival. -/
def ComesTo {α : Type} (path : Path) (node : Node) (p : Tour α) : Prop :=
  ∀ t, Ends (p t) (fun _ t' => t.arrivals ++ [⟨path, node, t.machine⟩] <+: t'.arrivals)
    (fun _ t' => t.arrivals ++ [⟨path, node, t.machine⟩] <+: t'.arrivals)

section Steps

variable {α : Type}

theorem Recalls.comesTo {p : Tour α} (h : Recalls p) (path : Path) (node : Node) :
    ComesTo path node (arrive path node >>= fun _ => p) :=
  fun t => h { t with arrivals := t.arrivals ++ [⟨path, node, t.machine⟩] }

theorem ComesTo.recalls {p : Tour α} {path : Path} {node : Node} (h : ComesTo path node p) : Recalls p :=
  fun t => (h t).mono (fun _ _ hmore => (List.prefix_append _ _).trans hmore)
    fun _ _ hmore => (List.prefix_append _ _).trans hmore

theorem recalls_lift (q : Run α) : Recalls (lift q) := by
  intro t
  unfold lift
  split
  · exact List.prefix_rfl
  · exact List.prefix_rfl

theorem recalls_newFunction (path : Path) : Recalls (newFunction path) :=
  fun _ => List.prefix_rfl

theorem recalls_originOf (f : Closure) : Recalls (originOf f) :=
  fun _ => List.prefix_rfl

theorem Recalls.inFrame {p : Tour α} (h : Recalls p) (frame : FrameId) : Recalls (inFrame frame p) := by
  intro t
  have hp := h { t with machine := { t.machine with current := frame } }
  unfold Tour.inFrame
  cases hrun : p { t with machine := { t.machine with current := frame } } with
  | ok a t' =>
    rw [hrun] at hp
    exact hp
  | error e t' =>
    rw [hrun] at hp
    exact hp

end Steps

/-! ## One step of the evaluator -/

section Parts

variable {evaluate : Path → Expr Distance → Tour Value} {execute : Path → Stmt Distance → Tour Flow} {path : Path}

theorem recalls_evaluateAll (heval : ∀ path e, Recalls (evaluate path e)) (i : Nat) (es : List (Expr Distance)) :
    Recalls (evaluateAll evaluate path i es) := by
  induction es generalizing i with
  | nil => exact extends_pure []
  | cons e es ih => exact (heval _ e).bind fun first => (ih (i + 1)).bind fun more => extends_pure (first :: more)

theorem recalls_executeAll (hexec : ∀ path s, Recalls (execute path s)) (i : Nat) (ss : List (Stmt Distance)) :
    Recalls (executeAll execute path i ss) := by
  induction ss generalizing i with
  | nil => exact extends_pure Flow.next
  | cons s ss ih =>
    refine (hexec _ s).bind fun flow => ?_
    cases flow with
    | next => exact ih (i + 1)
    | back value => exact extends_pure _

theorem recalls_executeBlock (hexec : ∀ path s, Recalls (execute path s)) (body : List (Stmt Distance)) :
    Recalls (executeBlock execute path body) := by
  refine (recalls_lift _).bind fun here => (recalls_lift _).bind fun frame => ?_
  exact (recalls_executeAll hexec 0 body).inFrame frame

theorem recalls_repeatWhile {test : Tour Bool} {body : Tour Flow} (htest : Recalls test) (hbody : Recalls body)
    (limit : Nat) : Recalls (repeatWhile test body limit) := by
  induction limit with
  | zero => exact extends_throw _
  | succ limit ih =>
    refine htest.bind fun holds => ?_
    split
    · refine hbody.bind fun flow => ?_
      cases flow with
      | next => exact ih
      | back value => exact extends_pure _
    · exact extends_pure _

theorem recalls_bindMethod (method : Closure) (this : Value) : Recalls (bindMethod method this) := by
  refine (recalls_lift _).bind fun frame => (recalls_lift _).bind fun _ => ?_
  exact (recalls_originOf method).bind fun path => (recalls_newFunction path).bind fun serial => extends_pure _

theorem recalls_callClosure (hexec : ∀ path s, Recalls (execute path s)) (f : Closure) (arguments : List Value) :
    Recalls (callClosure execute f arguments) := by
  refine (recalls_lift _).bind fun frame => (recalls_lift _).bind fun _ => (recalls_originOf f).bind fun path => ?_
  refine ((recalls_executeAll hexec 0 f.routine.body).inFrame frame).bind fun flow => ?_
  split
  · exact recalls_lift _
  · cases flow with
    | next => exact extends_pure _
    | back value => exact extends_pure _

theorem recalls_callClass (hexec : ∀ path s, Recalls (execute path s)) (c : Class) (arguments : List Value) :
    Recalls (callClass execute c arguments) := by
  refine (recalls_lift _).bind fun id => ?_
  cases c.initializer? with
  | none => exact extends_pure _
  | some method =>
    refine (recalls_bindMethod method _).bind fun bound => ?_
    exact (recalls_callClosure hexec bound arguments).bind fun _ => extends_pure _

theorem recalls_call (hexec : ∀ path s, Recalls (execute path s)) (paren : Token) (callee : Value)
    (arguments : List Value) : Recalls (call execute paren callee arguments) := by
  cases callee with
  | function f => exact recalls_callClosure hexec f arguments
  | native serial f => exact recalls_lift _
  | classValue c => exact recalls_callClass hexec c arguments
  | _ => exact recalls_lift (Run.fail paren .notCallable)

theorem recalls_getField (field : Token) (target : Value) : Recalls (getField field target) := by
  cases target with
  | object id c =>
    refine (recalls_lift _).bind fun found => ?_
    cases found with
    | some value => exact extends_pure _
    | none =>
      cases c.findMethod? field.lexeme with
      | none => exact recalls_lift _
      | some method => exact (recalls_bindMethod method _).bind fun bound => extends_pure _
  | _ => exact recalls_lift (Run.fail field .noProperties)

theorem recalls_getSuper (method : Token) (site : Distance) : Recalls (getSuper method site) := by
  cases site with
  | none => exact extends_throw _
  | some d =>
    refine (recalls_lift _).bind fun frame => (recalls_lift _).bind fun parent => (recalls_lift _).bind fun this => ?_
    cases parent with
    | classValue c =>
      cases hmethod : c.findMethod? method.lexeme with
      | none =>
        simp only [hmethod]
        exact recalls_lift _
      | some f =>
        simp only [hmethod]
        exact (recalls_bindMethod f this).bind fun bound => extends_pure _
    | _ => exact extends_throw _

theorem recalls_makeMethods (frame : FrameId) (i : Nat) (rs : List (Routine Distance)) (methods : Bindings Closure) :
    Recalls (makeMethods path frame i rs methods) := by
  induction rs generalizing i methods with
  | nil => exact extends_pure methods
  | cons r rs ih => exact (recalls_newFunction _).bind fun serial => ih (i + 1) _

theorem recalls_superclassOf {look : Expr Distance → Tour Value} (hlook : ∀ e, Recalls (look e))
    (parent : Option (Token × Distance)) : Recalls (superclassOf parent look) := by
  cases parent with
  | none => exact extends_pure none
  | some p =>
    refine (hlook _).bind fun v => ?_
    cases v with
    | classValue c => exact extends_pure _
    | _ => exact recalls_lift _

theorem recalls_defineClass (heval : ∀ path e, Recalls (evaluate path e)) (name : Token)
    (parent : Option (Token × Distance)) (methods : List (Routine Distance)) :
    Recalls (defineClass evaluate path name parent methods) := by
  refine (recalls_superclassOf (heval _) parent).bind fun found => (recalls_lift _).bind fun _ => ?_
  refine (recalls_lift _).bind fun frame => (recalls_makeMethods frame 1 methods []).bind fun table => ?_
  exact (recalls_lift _).bind fun serial => recalls_lift _

theorem recalls_evaluateCall (heval : ∀ path e, Recalls (evaluate path e))
    (hexec : ∀ path s, Recalls (execute path s)) (callee : Expr Distance) (paren : Token)
    (arguments : List (Expr Distance)) : Recalls (evaluateCall evaluate execute path callee paren arguments) := by
  refine (heval _ callee).bind fun f => ?_
  cases f.arity? with
  | none => exact recalls_lift _
  | some arity =>
    simp only
    split
    · exact (recalls_evaluateAll heval 1 arguments).bind fun values => recalls_call hexec paren f values
    · exact recalls_lift _

/-- One step of evaluation loses no arrival if evaluating and executing its parts loses none. -/
theorem recalls_evaluateStep (heval : ∀ path e, Recalls (evaluate path e))
    (hexec : ∀ path s, Recalls (execute path s)) (e : Expr Distance) :
    Recalls (evaluateStep evaluate execute path e) := by
  cases e with
  | literal value => exact extends_pure _
  | group inner => exact heval _ inner
  | unary operator operand => exact (heval _ operand).bind fun v => recalls_lift _
  | binary left operator right => exact (heval _ left).bind fun l => (heval _ right).bind fun r => recalls_lift _
  | logical left operator right =>
    refine (heval _ left).bind fun l => ?_
    split
    · exact extends_pure l
    · exact heval _ right
  | name token site => exact recalls_lift _
  | setField object field value =>
    refine (heval _ object).bind fun target => ?_
    cases target with
    | object id c => exact (heval _ value).bind fun v => (recalls_lift _).bind fun _ => extends_pure v
    | _ => exact recalls_lift _
  | getField object field => exact (heval _ object).bind fun target => recalls_getField field target
  | call callee paren arguments => exact recalls_evaluateCall heval hexec callee paren arguments
  | thisRef keyword site => exact recalls_lift _
  | superRef keyword method site => exact recalls_getSuper method site
  | unknown => exact extends_throw _

theorem recalls_evaluate? {value : Expr Distance → Tour Value} (hvalue : ∀ e, Recalls (value e))
    (e : Option (Expr Distance)) : Recalls (evaluate? value e) := by
  cases e with
  | none => exact extends_pure Value.null
  | some e => exact hvalue e

/-- One step of execution loses no arrival if evaluating and executing its parts loses none. -/
theorem recalls_executeStep (limits : Limits) (heval : ∀ path e, Recalls (evaluate path e))
    (hexec : ∀ path s, Recalls (execute path s)) (s : Stmt Distance) :
    Recalls (executeStep limits evaluate execute path s) := by
  cases s with
  | block body => exact recalls_executeBlock hexec body
  | define r =>
    refine (recalls_newFunction path).bind fun serial => (recalls_lift _).bind fun here => ?_
    exact (recalls_lift _).bind fun _ => extends_pure _
  | classDef name parent methods =>
    exact (recalls_defineClass heval name parent methods).bind fun _ => extends_pure _
  | evaluate e => exact (heval _ e).bind fun _ => extends_pure _
  | branch condition whenTrue whenFalse =>
    refine (heval _ condition).bind fun v => ?_
    split
    · exact hexec _ whenTrue
    · cases whenFalse with
      | none => exact extends_pure _
      | some other => exact hexec _ other
  | print e => exact (heval _ e).bind fun v => (recalls_lift _).bind fun _ => extends_pure _
  | giveBack keyword value => exact (recalls_evaluate? (heval _) value).bind fun v => extends_pure _
  | assign name value site =>
    refine (recalls_evaluate? (heval _) value).bind fun v => (recalls_lift _).bind fun _ => ?_
    exact extends_pure _
  | loop condition body =>
    refine recalls_repeatWhile ?_ (hexec _ body) limits.repetitions
    exact (heval _ condition).bind fun v => extends_pure _
  | unknown => exact extends_throw _

end Parts

/-- **Every call is an arrival.**  At every depth, evaluation and execution come to their node first of all, and lose no
arrival. -/
theorem comesTo_depth (limits : Limits) (depth : Nat) :
    (∀ path e, ComesTo path (.expression e) (evaluate limits depth path e)) ∧
      ∀ path s, ComesTo path (.statement s) (execute limits depth path s) := by
  induction depth with
  | zero =>
    constructor
    · intro path e
      exact Recalls.comesTo (extends_throw _) path (.expression e)
    · intro path s
      exact Recalls.comesTo (extends_throw _) path (.statement s)
  | succ depth ih =>
    have heval : ∀ path e, Recalls (evaluate limits depth path e) := fun path e => (ih.1 path e).recalls
    have hexec : ∀ path s, Recalls (execute limits depth path s) := fun path s => (ih.2 path s).recalls
    constructor
    · intro path e
      exact Recalls.comesTo (recalls_evaluateStep heval hexec e) path (.expression e)
    · intro path s
      exact Recalls.comesTo (recalls_executeStep limits heval hexec s) path (.statement s)

end Offside.Tour
