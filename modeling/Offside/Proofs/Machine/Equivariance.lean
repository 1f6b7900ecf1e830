import Offside.Proofs.Machine.Renumbering

/-!
# Evaluation under other identities

Expressions and statements go alike on machines that are the same up to serial numbers.  One step does if the steps
for its parts do, and so at every depth.  Nothing is looked up by a serial number, and a serial number that is given
on one side is the image of the one that is given on the other.

* `Run.EvaluatesEqually`, `Run.ExecutesEqually` — evaluation and execution go alike;
* `Run.matches_callClosure`, `Run.matches_defineClass` and others — the helpers;
* `Run.matches_evaluateStep`, `Run.matches_executeStep` — one step over steps for the parts;
* `Run.matches_depth`, `Run.matches_program` — every depth, and whole programs;
* `Machine.Renumbered.interpret` — what a program prints and reports, and the machine behind it.
-/

set_option autoImplicit false

namespace Offside

open Binding (Distance)

/-- What statements that go alike do to those behind them. -/
inductive Flow.Renumbered (σ : Equiv.Perm Nat) : Flow → Flow → Prop
  | next : Flow.Renumbered σ .next .next
  | back {v v' : Value} (h : v.Renumbered σ v') : Flow.Renumbered σ (.back v) (.back v')

namespace Run

variable {σ : Equiv.Perm Nat}

/-- Evaluating an expression goes alike on machines that are the same up to serial numbers. -/
def EvaluatesEqually (σ : Equiv.Perm Nat) (evaluate : Expr Distance → Run Value) : Prop :=
  ∀ e, Matches σ (evaluate e) (evaluate e) (Value.Renumbered σ)

/-- Executing a statement goes alike on machines that are the same up to serial numbers. -/
def ExecutesEqually (σ : Equiv.Perm Nat) (execute : Stmt Distance → Run Flow) : Prop :=
  ∀ s, Matches σ (execute s) (execute s) (Flow.Renumbered σ)

section Parts

variable {evaluate : Expr Distance → Run Value} {execute : Stmt Distance → Run Flow}

/-! ## Lists of expressions and statements -/

theorem matches_evaluateAll (heval : EvaluatesEqually σ evaluate) (es : List (Expr Distance)) :
    Matches σ (evaluateAll evaluate es) (evaluateAll evaluate es) (List.Forall₂ (Value.Renumbered σ)) := by
  induction es with
  | nil => exact .pure .nil
  | cons e es ih =>
    refine (heval e).bind fun v v' hv => ?_
    exact ih.bind fun vs vs' hvs => .pure (.cons hv hvs)

theorem matches_evaluate? (heval : EvaluatesEqually σ evaluate) (e : Option (Expr Distance)) :
    Matches σ (evaluate? evaluate e) (evaluate? evaluate e) (Value.Renumbered σ) := by
  cases e with
  | none => exact .pure .null
  | some e => exact heval e

theorem matches_executeAll (hexec : ExecutesEqually σ execute) (ss : List (Stmt Distance)) :
    Matches σ (executeAll execute ss) (executeAll execute ss) (Flow.Renumbered σ) := by
  induction ss with
  | nil => exact .pure .next
  | cons s ss ih =>
    refine (hexec s).bind fun flow flow' hflow => ?_
    cases hflow with
    | next => exact ih
    | back hv => exact .pure (.back hv)

theorem matches_executeBlock (hexec : ExecutesEqually σ execute) (body : List (Stmt Distance)) :
    Matches σ (executeBlock execute body) (executeBlock execute body) (Flow.Renumbered σ) := by
  refine matches_currentFrame.bind fun here here' hhere => ?_
  subst hhere
  refine (matches_newFrame here').bind fun frame frame' hframe => ?_
  subst hframe
  exact (matches_executeAll hexec body).inFrame frame'

theorem matches_repeatWhile {test : Run Bool} {body : Run Flow} (htest : Matches σ test test fun b b' => b' = b)
    (hbody : Matches σ body body (Flow.Renumbered σ)) (limit : Nat) :
    Matches σ (repeatWhile test body limit) (repeatWhile test body limit) (Flow.Renumbered σ) := by
  induction limit with
  | zero => exact matches_throw _
  | succ limit ih =>
    refine htest.bind fun b b' hsame => ?_
    subst hsame
    cases b' with
    | false => exact .pure .next
    | true =>
      refine hbody.bind fun flow flow' hflow => ?_
      cases hflow with
      | next => exact ih
      | back hv => exact .pure (.back hv)

/-! ## Names -/

theorem matches_lookUp (t : Token) (site : Distance) :
    Matches σ (lookUp t site) (lookUp t site) (Value.Renumbered σ) := by
  cases site with
  | none => exact matches_readGlobal t
  | some d =>
    refine matches_currentFrame.bind fun here here' hhere => ?_
    subst hhere
    exact matches_readAt here' d t.lexeme

theorem matches_assign (name : String) (site : Distance) {v v' : Value} (hv : v.Renumbered σ v') :
    Matches σ (assign name v site) (assign name v' site) fun _ _ => True := by
  cases site with
  | none => exact matches_define name hv
  | some d => exact matches_defineAt d name hv

/-! ## Calls -/

theorem matches_bindParams (id : FrameId) (params : List Token) {arguments arguments' : List Value}
    (hargs : List.Forall₂ (Value.Renumbered σ) arguments arguments') :
    Matches σ (bindParams id params arguments) (bindParams id params arguments') fun _ _ => True := by
  induction params generalizing arguments arguments' with
  | nil => exact .pure trivial
  | cons param params ih =>
    cases hargs with
    | nil => exact .pure trivial
    | cons hv hvs => exact (matches_defineIn id param.lexeme hv).bind fun _ _ _ => ih hvs

theorem matches_bindMethod (f : Closure) {this this' : Value} (hthis : this.Renumbered σ this') :
    Matches σ (bindMethod f this) (bindMethod (f.renumber σ) this') fun g g' => g' = g.renumber σ := by
  refine (matches_newFrame f.frame).bind fun frame frame' hframe => ?_
  subst hframe
  refine (matches_defineIn frame' "this" hthis).bind fun _ _ _ => ?_
  refine matches_newSerial.bind fun serial serial' hserial => ?_
  subst hserial
  exact .pure rfl

theorem matches_callClosure (hexec : ExecutesEqually σ execute) (f : Closure) {arguments arguments' : List Value}
    (hargs : List.Forall₂ (Value.Renumbered σ) arguments arguments') :
    Matches σ (callClosure execute f arguments) (callClosure execute (f.renumber σ) arguments')
      (Value.Renumbered σ) := by
  refine (matches_newFrame f.frame).bind fun frame frame' hframe => ?_
  subst hframe
  refine (matches_bindParams frame' f.routine.params hargs).bind fun _ _ _ => ?_
  refine ((matches_executeAll hexec f.routine.body).inFrame frame').bind fun flow flow' hflow => ?_
  simp only [Closure.renumber]
  by_cases hinit : f.isInitializer = true
  · simp only [hinit, if_true]
    exact matches_readAt f.frame 0 "this"
  · simp only [hinit]
    cases hflow with
    | next => exact .pure .null
    | back hv => exact .pure hv

theorem matches_callClass (hexec : ExecutesEqually σ execute) {c c' : Class} {arguments arguments' : List Value}
    (hc : c.Renumbered σ c') (hargs : List.Forall₂ (Value.Renumbered σ) arguments arguments') :
    Matches σ (callClass execute c arguments) (callClass execute c' arguments') (Value.Renumbered σ) := by
  refine matches_newInstance.bind fun id id' hid => ?_
  subst hid
  simp only [Class.initializer?, hc.findMethod?]
  cases c.findMethod? Routine.initializerName with
  | none => exact .pure (.object _ hc)
  | some f =>
    refine (matches_bindMethod f (.object _ hc)).bind fun g g' hg => ?_
    subst hg
    exact (matches_callClosure hexec g hargs).bind fun _ _ _ => .pure (.object _ hc)

theorem matches_call (hexec : ExecutesEqually σ execute) (paren : Token) {callee callee' : Value}
    {arguments arguments' : List Value} (hcallee : callee.Renumbered σ callee')
    (hargs : List.Forall₂ (Value.Renumbered σ) arguments arguments') :
    Matches σ (call execute paren callee arguments) (call execute paren callee' arguments')
      (Value.Renumbered σ) := by
  cases hcallee with
  | function f => exact matches_callClosure hexec f hargs
  | native serial f => exact matches_callNative paren f hargs
  | classValue h => exact matches_callClass hexec h hargs
  | _ => exact matches_fail _ _

/-! ## Fields and methods -/

theorem matches_getField (field : Token) {target target' : Value} (h : target.Renumbered σ target') :
    Matches σ (getField field target) (getField field target') (Value.Renumbered σ) := by
  cases h with
  | @object id c c' hc =>
    refine (matches_readField? id field.lexeme).bind fun found found' hfound => ?_
    cases hfound with
    | some hv => exact .pure hv
    | none =>
      simp only [hc.findMethod?]
      cases c.findMethod? field.lexeme with
      | none => exact matches_fail _ _
      | some f =>
        refine (matches_bindMethod f (.object id hc)).bind fun g g' hg => ?_
        subst hg
        exact .pure (.function g)
  | _ => exact matches_fail _ _

theorem matches_getSuper (method : Token) (site : Distance) :
    Matches σ (getSuper method site) (getSuper method site) (Value.Renumbered σ) := by
  cases site with
  | none => exact matches_throw _
  | some d =>
    refine matches_currentFrame.bind fun here here' hhere => ?_
    subst hhere
    refine (matches_readAt here' d "super").bind fun parent parent' hparent => ?_
    refine (matches_readAt here' (d - 1) "this").bind fun this this' hthis => ?_
    cases hparent with
    | @classValue c c' hc =>
      simp only [hc.findMethod?]
      cases c.findMethod? method.lexeme with
      | none => exact matches_fail _ _
      | some f =>
        refine (matches_bindMethod f hthis).bind fun g g' hg => ?_
        subst hg
        exact .pure (.function g)
    | _ => exact matches_throw _

/-! ## Classes -/

theorem matches_makeMethods (id : FrameId) (rs : List (Routine Distance)) {table table' : Bindings Closure}
    (htable : ∀ name, table'.get? name = (table.get? name).map (Closure.renumber σ)) :
    Matches σ (makeMethods id rs table) (makeMethods id rs table')
      fun made made' => ∀ name, made'.get? name = (made.get? name).map (Closure.renumber σ) := by
  induction rs generalizing table table' with
  | nil => exact .pure htable
  | cons r rs ih =>
    refine matches_newSerial.bind fun serial serial' hserial => ?_
    subst hserial
    refine ih fun name => ?_
    by_cases hname : r.name.lexeme = name
    · rw [hname, Bindings.get?_put_self, Bindings.get?_put_self]
      rfl
    · rw [Bindings.get?_put_of_ne hname, Bindings.get?_put_of_ne hname]
      exact htable name

theorem matches_superclassOf (heval : EvaluatesEqually σ evaluate) (parent : Option (Token × Distance)) :
    Matches σ (superclassOf parent evaluate) (superclassOf parent evaluate) (Option.Rel (Class.Renumbered σ)) := by
  cases parent with
  | none => exact .pure .none
  | some t =>
    refine (heval (.name t.1 t.2)).bind fun v v' hv => ?_
    cases hv with
    | classValue hc => exact .pure (.some hc)
    | _ => exact matches_fail _ _

theorem matches_methodFrame {parent parent' : Option Class} (hparent : Option.Rel (Class.Renumbered σ) parent parent') :
    Matches σ (methodFrame parent) (methodFrame parent') fun id id' => id' = id := by
  refine matches_currentFrame.bind fun here here' hhere => ?_
  subst hhere
  cases hparent with
  | none => exact .pure rfl
  | some hc =>
    refine (matches_newFrame here').bind fun id id' hid => ?_
    subst hid
    exact (matches_defineIn id' "super" (.classValue hc)).bind fun _ _ _ => .pure rfl

theorem matches_defineClass (heval : EvaluatesEqually σ evaluate) (name : Token)
    (parent : Option (Token × Distance)) (methods : List (Routine Distance)) :
    Matches σ (defineClass evaluate name parent methods) (defineClass evaluate name parent methods)
      fun _ _ => True := by
  refine (matches_superclassOf heval parent).bind fun c c' hc => ?_
  refine (matches_define name.lexeme .null).bind fun _ _ _ => ?_
  refine (matches_methodFrame hc).bind fun id id' hid => ?_
  subst hid
  refine (matches_makeMethods id' methods fun _ => rfl).bind fun table table' htable => ?_
  refine matches_newSerial.bind fun serial serial' hserial => ?_
  refine matches_define name.lexeme (.classValue (.cons ⟨hserial, rfl, htable⟩ ?_))
  cases hc with
  | none => exact .nil
  | some hc => exact hc

/-! ## One step -/

theorem matches_evaluateCall (heval : EvaluatesEqually σ evaluate) (hexec : ExecutesEqually σ execute)
    (callee : Expr Distance) (paren : Token) (arguments : List (Expr Distance)) :
    Matches σ (evaluateCall evaluate execute callee paren arguments)
      (evaluateCall evaluate execute callee paren arguments) (Value.Renumbered σ) := by
  refine (heval callee).bind fun f f' hf => ?_
  rw [hf.arity?]
  cases f.arity? with
  | none => exact matches_fail _ _
  | some arity =>
    simp only
    split
    · exact (matches_evaluateAll heval arguments).bind fun vs vs' hvs => matches_call hexec paren hf hvs
    · exact matches_fail _ _

/-- One step of evaluation. -/
theorem matches_evaluateStep (heval : EvaluatesEqually σ evaluate) (hexec : ExecutesEqually σ execute) :
    EvaluatesEqually σ (evaluateStep evaluate execute) := by
  intro e
  cases e with
  | literal value => exact .pure (.ofLiteral value)
  | group inner => exact heval inner
  | unary operator operand => exact (heval operand).bind fun v v' hv => matches_unary operator hv
  | binary left operator right =>
    refine (heval left).bind fun l l' hl => ?_
    exact (heval right).bind fun r r' hr => matches_binary operator hl hr
  | logical left operator right =>
    refine (heval left).bind fun l l' hl => ?_
    rw [hl.resembles.isTruthy]
    split
    · exact .pure hl
    · exact heval right
  | name token site => exact matches_lookUp token site
  | setField object field value =>
    refine (heval object).bind fun o o' ho => ?_
    cases ho with
    | object id hc =>
      refine (heval value).bind fun v v' hv => ?_
      exact (matches_writeField id field.lexeme hv).bind fun _ _ _ => .pure hv
    | _ => exact matches_fail _ _
  | getField object field => exact (heval object).bind fun o o' ho => matches_getField field ho
  | call callee paren arguments => exact matches_evaluateCall heval hexec callee paren arguments
  | thisRef keyword site => exact matches_lookUp keyword site
  | superRef keyword method site => exact matches_getSuper method site
  | unknown => exact matches_throw _

/-- One step of execution. -/
theorem matches_executeStep (limits : Limits) (heval : EvaluatesEqually σ evaluate)
    (hexec : ExecutesEqually σ execute) : ExecutesEqually σ (executeStep limits evaluate execute) := by
  intro s
  cases s with
  | block body => exact matches_executeBlock hexec body
  | define r =>
    refine matches_newSerial.bind fun serial serial' hserial => ?_
    subst hserial
    refine matches_currentFrame.bind fun here here' hhere => ?_
    subst hhere
    refine (matches_define r.name.lexeme (.function _)).bind fun _ _ _ => ?_
    exact .pure .next
  | classDef name parent methods =>
    exact (matches_defineClass heval name parent methods).bind fun _ _ _ => .pure .next
  | evaluate e => exact (heval e).bind fun _ _ _ => .pure .next
  | branch condition whenTrue whenFalse =>
    refine (heval condition).bind fun v v' hv => ?_
    rw [hv.resembles.isTruthy]
    split
    · exact hexec whenTrue
    · cases whenFalse with
      | none => exact .pure .next
      | some s => exact hexec s
  | print e =>
    refine (heval e).bind fun v v' hv => ?_
    rw [hv.resembles.display]
    exact (matches_printLine v.display).bind fun _ _ _ => .pure .next
  | giveBack keyword value => exact (matches_evaluate? heval value).bind fun v v' hv => .pure (.back hv)
  | assign name value site =>
    refine (matches_evaluate? heval value).bind fun v v' hv => ?_
    exact (matches_assign name.lexeme site hv).bind fun _ _ _ => .pure .next
  | loop condition body =>
    refine matches_repeatWhile ?_ (hexec body) limits.repetitions
    exact (heval condition).bind fun v v' hv => .pure hv.resembles.isTruthy
  | unknown => exact matches_throw _

end Parts

/-! ## Every depth -/

/-- **Evaluation under other identities.** -/
theorem matches_depth (limits : Limits) (depth : Nat) :
    EvaluatesEqually σ (evaluate limits depth) ∧ ExecutesEqually σ (execute limits depth) := by
  induction depth with
  | zero => exact ⟨fun _ => matches_throw _, fun _ => matches_throw _⟩
  | succ depth ih =>
    obtain ⟨heval, hexec⟩ := ih
    exact ⟨matches_evaluateStep heval hexec, matches_executeStep limits heval hexec⟩

theorem matches_program (limits : Limits) (ss : List (Stmt Distance)) :
    Matches σ (program limits ss) (program limits ss) fun _ _ => True := by
  induction ss with
  | nil => exact .pure trivial
  | cons s ss ih => exact ((matches_depth limits limits.nesting).2 s).bind fun _ _ _ => ih

end Run

/-- Endings of programs that are the same up to serial numbers. -/
structure Machine.Ending.Renumbered (σ : Equiv.Perm Nat) (ending ending' : Machine.Ending) : Prop where
  machine : ending.machine.Renumbered σ ending'.machine
  reports : ending'.reports = ending.reports
  escaped : ending'.escaped = ending.escaped

/-- **A program under other identities.**  It prints and reports the same, and escapes with the same fault. -/
theorem Machine.Renumbered.interpret {σ : Equiv.Perm Nat} {m m' : Machine} (h : m.Renumbered σ m') (limits : Limits)
    (ss : List (Stmt Distance)) : (m.interpret limits ss).Renumbered σ (m'.interpret limits ss) := by
  have hpairs := Run.matches_program limits ss h
  unfold Machine.interpret
  cases hs : Run.program limits ss m with
  | ok _ after =>
    cases ht : Run.program limits ss m' with
    | ok _ after' =>
      rw [hs, ht] at hpairs
      exact ⟨hpairs.2, rfl, rfl⟩
    | error fault' after' =>
      rw [hs, ht] at hpairs
      exact hpairs.elim
  | error fault after =>
    cases ht : Run.program limits ss m' with
    | ok _ after' =>
      rw [hs, ht] at hpairs
      exact hpairs.elim
    | error fault' after' =>
      rw [hs, ht] at hpairs
      obtain ⟨rfl, hm⟩ := hpairs
      cases fault with
      | overflow => exact ⟨hm.move globalFrame, rfl, rfl⟩
      | _ => exact ⟨hm, rfl, rfl⟩

end Offside
