import Offside.Proofs.Machine.Rules
import Offside.Proofs.Machine.Watch

/-!
# Evaluation by rules

A step of the evaluator keeps to the rules if the steps for its parts do, and so at every depth: whatever is
evaluated or executed from a machine that upholds the rules, by code that is written by them, leaves such a
machine, touches no other places and binds no other names.

* `Run.EvaluatesBy`, `Run.ExecutesBy` — evaluation and execution keep to the rules;
* `Run.upholds_bindMethod`, `Run.upholds_callClosure`, `Run.upholds_defineClass` and others — the helpers;
* `Run.upholds_evaluateStep`, `Run.upholds_executeStep` — one step over steps for the parts;
* `Run.upholds_watched`, `Run.upholds_evaluate`, `Run.upholds_execute` — every depth, with and without watch.
-/

set_option autoImplicit false

namespace Offside

open Binding (Body Distance Node)

/-- What a statement in a body of the given kind may do to those behind it: a value that is given back is one
by the rules, and is null unless a value may be returned. -/
def Flow.Heeds (R : Rules) (kind : Body) : Flow → Prop
  | .next => True
  | .back value => value.Heeds R ∧ ∃ given, R.back kind given ∧ (given = false → value = .null)

namespace Run

/-- Evaluating any expression keeps to the rules, and so does its value. -/
def EvaluatesBy (R : Rules) (evaluate evaluate' : Expr Distance → Run Value) : Prop :=
  ∀ (m : Machine) (e : Expr Distance), m.Upheld R →
    Upholds R m (evaluate e) (evaluate' e) fun v _ => v.Heeds R

/-- Executing a statement that is written by the rules keeps to them. -/
def ExecutesBy (R : Rules) (execute execute' : Stmt Distance → Run Flow) : Prop :=
  ∀ (m : Machine) (kind : Body) (s : Stmt Distance), m.Upheld R → R.StmtHeeds kind s →
    Upholds R m (execute s) (execute' s) fun flow _ => flow.Heeds R kind

section Parts

variable {R : Rules} {m : Machine} {kind : Body} {evaluate evaluate' : Expr Distance → Run Value}
  {execute execute' : Stmt Distance → Run Flow}

/-! ## Lists of expressions and statements -/

theorem upholds_evaluateAll (heval : EvaluatesBy R evaluate evaluate') (es : List (Expr Distance))
    (hm : m.Upheld R) :
    Upholds R m (evaluateAll evaluate es) (evaluateAll evaluate' es) fun vs _ => ∀ v ∈ vs, v.Heeds R := by
  induction es generalizing m with
  | nil => exact .pure hm nofun
  | cons e es ih =>
    refine .bind (heval m e hm) fun v m₁ h₁ hv => ?_
    refine .bind (ih h₁.upheld) fun vs m₂ h₂ hvs => ?_
    exact .pure h₂.upheld (List.forall_mem_cons.2 ⟨hv, hvs⟩)

theorem upholds_executeAll (hexec : ExecutesBy R execute execute') (ss : List (Stmt Distance))
    (hm : m.Upheld R) (h : R.StmtsHeed kind ss) :
    Upholds R m (executeAll execute ss) (executeAll execute' ss) fun flow _ => flow.Heeds R kind := by
  induction ss generalizing m with
  | nil => exact .pure hm trivial
  | cons s ss ih =>
    refine .bind (hexec m kind s hm h.1) fun flow m₁ h₁ hflow => ?_
    cases flow with
    | next => exact ih h₁.upheld h.2
    | back v => exact .pure h₁.upheld hflow

theorem upholds_executeBlock (hexec : ExecutesBy R execute execute') {body : List (Stmt Distance)}
    (hm : m.Upheld R) (h : R.StmtsHeed kind body) :
    Upholds R m (executeBlock execute body) (executeBlock execute' body) fun flow _ => flow.Heeds R kind := by
  refine .bind (upholds_currentFrame hm) fun here m₁ h₁ hhere => ?_
  refine .bind (upholds_newFrame h₁.upheld hhere.2) fun frame m₂ h₂ hframe => ?_
  refine .inFrame h₂.upheld (upholds_executeAll hexec body ?_ h) fun _ _ hflow => hflow
  exact h₂.upheld.of_eq rfl rfl hframe.1

theorem upholds_repeatWhile {test test' : Run Bool} {body body' : Run Flow}
    (htest : ∀ m : Machine, m.Upheld R → Upholds R m test test' fun _ _ => True)
    (hbody : ∀ m : Machine, m.Upheld R → Upholds R m body body' fun flow _ => flow.Heeds R kind)
    (limit : Nat) (hm : m.Upheld R) :
    Upholds R m (repeatWhile test body limit) (repeatWhile test' body' limit)
      fun flow _ => flow.Heeds R kind := by
  induction limit generalizing m with
  | zero => exact upholds_throw hm _
  | succ limit ih =>
    refine .bind (htest m hm) fun holds m₁ h₁ _ => ?_
    cases holds with
    | false => exact .pure h₁.upheld trivial
    | true =>
      refine .bind (hbody m₁ h₁.upheld) fun flow m₂ h₂ hflow => ?_
      cases flow with
      | next => exact ih h₂.upheld
      | back v => exact .pure h₂.upheld hflow

theorem upholds_lookUp (hm : m.Upheld R) (t : Token) (site : Distance) :
    Upholds R m (lookUp t site) (lookUp t site) fun v _ => v.Heeds R := by
  cases site with
  | none => exact upholds_readGlobal hm t
  | some d =>
    refine .bind (upholds_currentFrame hm) fun here m₁ h₁ hhere => ?_
    exact (upholds_readAt h₁.upheld hhere.2 d t.lexeme).mono fun _ _ _ hv => hv.1

/-! ## Calls -/

theorem upholds_bindParams {frame : FrameId} (params : List Token) (arguments : List Value) (hm : m.Upheld R)
    (hframe : R.place (.frame frame)) (hparams : ∀ t ∈ params, R.name t.lexeme)
    (hargs : ∀ v ∈ arguments, v.Heeds R) :
    Upholds R m (bindParams frame params arguments) (bindParams frame params arguments) fun _ _ => True := by
  induction params generalizing m arguments with
  | nil => exact .pure hm trivial
  | cons param params ih =>
    cases arguments with
    | nil => exact .pure hm trivial
    | cons argument arguments =>
      obtain ⟨hparam, hparams⟩ := List.forall_mem_cons.1 hparams
      obtain ⟨hargument, hargs⟩ := List.forall_mem_cons.1 hargs
      refine .bind (upholds_defineIn hm hframe (Or.inl hparam) hargument) fun _ m₁ h₁ _ => ?_
      exact ih arguments h₁.upheld hparams hargs

/-- The copy of a method lives in a new frame, which binds the instance. -/
theorem upholds_bindMethod {method : Closure} {this : Value} (hm : m.Upheld R) (hmethod : method.Heeds R)
    (hthis : this.Heeds R) :
    Upholds R m (bindMethod method this) (bindMethod method this)
      fun f m' => f.Heeds R ∧ f.isInitializer = method.isInitializer ∧
        (m'.frames.bindingsOf f.frame).get? "this" = some this := by
  refine .bind (upholds_newFrame hm hmethod.place) fun frame m₁ h₁ hframe => ?_
  obtain ⟨hplace, hcell⟩ := hframe
  have hempty : (m₁.frames.bindingsOf frame).get? "this" = none := by
    rw [Frames.bindingsOf, hcell]
    rfl
  refine .bind (upholds_defineIn h₁.upheld hplace (Or.inr hempty) hthis) fun _ m₂ h₂ hframes => ?_
  have hbound : (m₂.frames.bindingsOf frame).get? "this" = some this := by
    rw [hframes, Frames.bindingsOf, Frames.define, Array.getElem?_modify, if_pos rfl, hcell]
    exact Bindings.get?_put_self _ _ _
  have hserial : newSerial m₂ = .ok m₂.nextSerial { m₂ with nextSerial := m₂.nextSerial + 1 } := rfl
  have hadvances := (upholds_newSerial h₂.upheld).ends.value_of_ok hserial
  refine ⟨rfl, ?_⟩
  rw [Step.bind_of_ok hserial]
  exact ⟨hadvances.1, ⟨hplace, hmethod.code⟩, rfl, hbound⟩

/-- An initializer gives back what its frame binds to `this`, now and when the call began. -/
theorem upholds_callClosure (hexec : ExecutesBy R execute execute') {f : Closure} {arguments : List Value}
    (hm : m.Upheld R) (hf : f.Heeds R) (hargs : ∀ v ∈ arguments, v.Heeds R) :
    Upholds R m (callClosure execute f arguments) (callClosure execute' f arguments)
      fun v _ => v.Heeds R ∧ (f.isInitializer = true → ∀ this, ¬ R.name "this" →
        (m.frames.bindingsOf f.frame).get? "this" = some this → v = this) := by
  obtain ⟨hparams, hbody⟩ := Rules.routineHeeds_iff.1 hf.code
  refine .bind (upholds_newFrame hm hf.place) fun frame m₁ h₁ hframe => ?_
  refine .bind (upholds_bindParams f.routine.params arguments h₁.upheld hframe.1 hparams hargs)
    fun _ m₂ h₂ _ => ?_
  refine .bind (Upholds.inFrame h₂.upheld (upholds_executeAll hexec f.routine.body
    (h₂.upheld.of_eq rfl rfl hframe.1) hbody) fun _ _ hflow => hflow) fun flow m₃ h₃ hflow => ?_
  split
  · refine (upholds_readAt h₃.upheld hf.place 0 "this").mono fun v m₄ h₄ hv => ⟨hv.1, ?_⟩
    intro _ this hthis hbefore
    have hafter := ((h₁.trans h₂).trans h₃).kept f.frame "this" this hthis hbefore
    rw [Frames.get?_of_getAt_zero hv.2] at hafter
    exact Option.some.inj hafter
  · next hplain =>
    cases flow with
    | next => exact .pure h₃.upheld ⟨Value.heeds_null, fun h => absurd h hplain⟩
    | back v => exact .pure h₃.upheld ⟨hflow.1, fun h => absurd h hplain⟩

theorem upholds_callClass (hexec : ExecutesBy R execute execute') {c : Class} {arguments : List Value}
    (hm : m.Upheld R) (hc : (Value.classValue c).Heeds R) (hargs : ∀ v ∈ arguments, v.Heeds R) :
    Upholds R m (callClass execute c arguments) (callClass execute' c arguments) fun v _ => v.Heeds R := by
  refine .bind (upholds_newInstance hm) fun id m₁ h₁ hid => ?_
  have hmade : (Value.object id c).Heeds R :=
    ⟨fun _ hid' => List.mem_singleton.1 hid' ▸ hid, hc.functions⟩
  cases hinit : c.initializer? with
  | none => exact .pure h₁.upheld hmade
  | some method =>
    refine .bind (upholds_bindMethod h₁.upheld (hc.method hinit) hmade) fun f m₂ h₂ hf => ?_
    refine .bind (upholds_callClosure hexec h₂.upheld hf.1 hargs) fun _ m₃ h₃ _ => ?_
    exact .pure h₃.upheld hmade

theorem upholds_call (hexec : ExecutesBy R execute execute') (paren : Token) {callee : Value}
    {arguments : List Value} (hm : m.Upheld R) (hcallee : callee.Heeds R) (hargs : ∀ v ∈ arguments, v.Heeds R) :
    Upholds R m (call execute paren callee arguments) (call execute' paren callee arguments)
      fun v _ => v.Heeds R := by
  cases callee with
  | function f => exact (upholds_callClosure hexec hm hcallee.closure hargs).mono fun _ _ _ hv => hv.1
  | native serial f => exact upholds_callNative hm paren f hargs
  | classValue c => exact upholds_callClass hexec hm hcallee hargs
  | _ => exact upholds_fail hm _ _

/-! ## Fields and methods -/

theorem upholds_getField (field : Token) {target : Value} (hm : m.Upheld R) (htarget : target.Heeds R) :
    Upholds R m (getField field target) (getField field target) fun v _ => v.Heeds R := by
  cases target with
  | object id c =>
    refine .bind (upholds_readField? hm htarget.object field.lexeme) fun found m₁ h₁ hfound => ?_
    cases found with
    | some v => exact .pure h₁.upheld (hfound v rfl)
    | none =>
      cases hmethod : c.findMethod? field.lexeme with
      | none => exact upholds_fail h₁.upheld _ _
      | some method =>
        refine .bind (upholds_bindMethod h₁.upheld (htarget.class.method hmethod) htarget) fun f m₂ h₂ hf => ?_
        exact .pure h₂.upheld hf.1.value
  | _ => exact upholds_fail hm _ _

theorem upholds_getSuper (method : Token) (site : Distance) (hm : m.Upheld R) :
    Upholds R m (getSuper method site) (getSuper method site) fun v _ => v.Heeds R := by
  cases site with
  | none => exact upholds_throw hm _
  | some d =>
    refine .bind (upholds_currentFrame hm) fun here m₁ h₁ hhere => ?_
    refine .bind (upholds_readAt h₁.upheld hhere.2 d "super") fun parent m₂ h₂ hparent => ?_
    refine .bind (upholds_readAt h₂.upheld hhere.2 (d - 1) "this") fun this m₃ h₃ hthis => ?_
    cases parent with
    | classValue c =>
      cases hmethod : c.findMethod? method.lexeme with
      | none =>
        simp only [hmethod]
        exact upholds_fail h₃.upheld _ _
      | some f =>
        simp only [hmethod]
        refine .bind (upholds_bindMethod h₃.upheld (hparent.1.method hmethod) hthis.1) fun bound m₄ h₄ hbound => ?_
        exact .pure h₄.upheld hbound.1.value
    | _ => exact upholds_throw h₃.upheld _

/-! ## Classes -/

theorem upholds_makeMethods {frame : FrameId} (rs : List (Routine Distance)) {table : Bindings Closure}
    (hm : m.Upheld R) (hframe : R.place (.frame frame)) (hcode : R.MethodsHeed rs)
    (htable : ∀ entry ∈ table, entry.2.Heeds R) :
    Upholds R m (makeMethods frame rs table) (makeMethods frame rs table)
      fun table _ => ∀ entry ∈ table, entry.2.Heeds R := by
  induction rs generalizing m table with
  | nil => exact .pure hm htable
  | cons r rs ih =>
    refine .bind (upholds_newSerial hm) fun serial m₁ h₁ _ => ?_
    refine ih h₁.upheld hcode.2 fun entry hentry => ?_
    rcases Bindings.mem_put hentry with rfl | hentry
    · exact ⟨hframe, hcode.1⟩
    · exact htable entry hentry

theorem upholds_superclassOf (heval : EvaluatesBy R evaluate evaluate') (parent : Option (Token × Distance))
    (hm : m.Upheld R) :
    Upholds R m (superclassOf parent evaluate) (superclassOf parent evaluate')
      fun found _ => ∀ c ∈ found, (Value.classValue c).Heeds R := by
  cases parent with
  | none => exact .pure hm nofun
  | some p =>
    refine .bind (heval m _ hm) fun v m₁ h₁ hv => ?_
    cases v with
    | classValue c => exact .pure h₁.upheld fun _ hc => Option.some.inj hc ▸ hv
    | _ => exact upholds_fail h₁.upheld _ _

theorem upholds_methodFrame {parent : Option Class} (hm : m.Upheld R)
    (hparent : ∀ c ∈ parent, (Value.classValue c).Heeds R) :
    Upholds R m (methodFrame parent) (methodFrame parent) fun frame _ => R.place (.frame frame) := by
  refine .bind (upholds_currentFrame hm) fun here m₁ h₁ hhere => ?_
  cases parent with
  | none => exact .pure h₁.upheld hhere.2
  | some c =>
    refine .bind (upholds_newFrame h₁.upheld hhere.2) fun frame m₂ h₂ hframe => ?_
    have hempty : (m₂.frames.bindingsOf frame).get? "super" = none := by
      rw [Frames.bindingsOf, hframe.2]
      rfl
    refine .bind (upholds_defineIn h₂.upheld hframe.1 (Or.inr hempty) (hparent c rfl)) fun _ m₃ h₃ _ => ?_
    exact .pure h₃.upheld hframe.1

theorem upholds_defineClass (heval : EvaluatesBy R evaluate evaluate') {name : Token}
    {parent : Option (Token × Distance)} {methods : List (Routine Distance)} (hm : m.Upheld R)
    (hname : R.name name.lexeme) (hmethods : R.MethodsHeed methods) :
    Upholds R m (defineClass evaluate name parent methods) (defineClass evaluate' name parent methods)
      fun _ _ => True := by
  refine .bind (upholds_superclassOf heval parent hm) fun found m₁ h₁ hfound => ?_
  refine .bind (upholds_define h₁.upheld hname Value.heeds_null) fun _ m₂ h₂ _ => ?_
  refine .bind (upholds_methodFrame h₂.upheld hfound) fun frame m₃ h₃ hframe => ?_
  refine .bind (upholds_makeMethods methods h₃.upheld hframe hmethods nofun) fun table m₄ h₄ htable => ?_
  refine .bind (upholds_newSerial h₄.upheld) fun serial m₅ h₅ _ => ?_
  refine upholds_define h₅.upheld hname ⟨nofun, fun f hf => ?_⟩
  -- a method of the new class is one of the table or one of an ancestor
  obtain ⟨layer, hlayer, hf⟩ := List.mem_flatMap.1 hf
  obtain ⟨entry, hentry, rfl⟩ := List.mem_map.1 hf
  rcases List.mem_cons.1 hlayer with rfl | hlayer
  · exact htable entry hentry
  · cases found with
    | none => cases hlayer
    | some c =>
      exact (hfound c rfl).functions _ (List.mem_flatMap.2 ⟨layer, hlayer, List.mem_map.2 ⟨entry, hentry, rfl⟩⟩)

/-! ## One step -/

theorem upholds_evaluateCall (heval : EvaluatesBy R evaluate evaluate') (hexec : ExecutesBy R execute execute')
    (callee : Expr Distance) (paren : Token) (arguments : List (Expr Distance)) (hm : m.Upheld R) :
    Upholds R m (evaluateCall evaluate execute callee paren arguments)
      (evaluateCall evaluate' execute' callee paren arguments) fun v _ => v.Heeds R := by
  refine .bind (heval m callee hm) fun f m₁ h₁ hf => ?_
  split
  · exact upholds_fail h₁.upheld _ _
  · split
    · refine .bind (upholds_evaluateAll heval arguments h₁.upheld) fun values m₂ h₂ hvalues => ?_
      exact upholds_call hexec paren h₂.upheld hf hvalues
    · exact upholds_fail h₁.upheld _ _

/-- **One step of evaluation keeps to the rules**, one case for each kind of expression. -/
theorem upholds_evaluateStep (heval : EvaluatesBy R evaluate evaluate')
    (hexec : ExecutesBy R execute execute') :
    EvaluatesBy R (evaluateStep evaluate execute) (evaluateStep evaluate' execute') := by
  intro m e hm
  cases e with
  | literal value => exact .pure hm (Value.heeds_ofLiteral value)
  | group inner => exact heval m inner hm
  | unary operator operand =>
    refine .bind (heval m operand hm) fun v m₁ h₁ _ => ?_
    exact (settles_unary operator v).upholds h₁.upheld
  | binary left operator right =>
    refine .bind (heval m left hm) fun l m₁ h₁ _ => ?_
    refine .bind (heval m₁ right h₁.upheld) fun r m₂ h₂ _ => ?_
    exact (settles_binary operator l r).upholds h₂.upheld
  | logical left operator right =>
    refine .bind (heval m left hm) fun l m₁ h₁ hl => ?_
    split
    · exact .pure h₁.upheld hl
    · exact heval m₁ right h₁.upheld
  | name token site => exact upholds_lookUp hm token site
  | setField object field value =>
    refine .bind (heval m object hm) fun target m₁ h₁ htarget => ?_
    cases target with
    | object id c =>
      refine .bind (heval m₁ value h₁.upheld) fun v m₂ h₂ hv => ?_
      refine .bind (upholds_writeField h₂.upheld htarget.object field.lexeme hv) fun _ m₃ h₃ _ => ?_
      exact .pure h₃.upheld hv
    | _ => exact upholds_fail h₁.upheld _ _
  | getField object field =>
    refine .bind (heval m object hm) fun target m₁ h₁ htarget => ?_
    exact upholds_getField field h₁.upheld htarget
  | call callee paren arguments => exact upholds_evaluateCall heval hexec callee paren arguments hm
  | thisRef keyword site => exact upholds_lookUp hm keyword site
  | superRef keyword method site => exact upholds_getSuper method site hm
  | unknown => exact upholds_throw hm _

theorem upholds_evaluate? (heval : EvaluatesBy R evaluate evaluate') (value : Option (Expr Distance))
    (hm : m.Upheld R) :
    Upholds R m (evaluate? evaluate value) (evaluate? evaluate' value)
      fun v _ => v.Heeds R ∧ (value.isSome = false → v = .null) := by
  cases value with
  | none => exact .pure hm ⟨Value.heeds_null, fun _ => rfl⟩
  | some e => exact (heval m e hm).mono fun _ _ _ hv => ⟨hv, nofun⟩

theorem upholds_assign {name : String} {value : Value} (hm : m.Upheld R) (hname : R.name name)
    (hvalue : value.Heeds R) (site : Distance) :
    Upholds R m (assign name value site) (assign name value site) fun _ _ => True := by
  cases site with
  | none => exact upholds_define hm hname hvalue
  | some d => exact upholds_defineAt hm d hname hvalue

/-- **One step of execution keeps to the rules**, one case for each kind of statement. -/
theorem upholds_executeStep (limits : Limits) (heval : EvaluatesBy R evaluate evaluate')
    (hexec : ExecutesBy R execute execute') :
    ExecutesBy R (executeStep limits evaluate execute) (executeStep limits evaluate' execute') := by
  intro m kind s hm h
  cases s with
  | block body => exact upholds_executeBlock hexec hm h
  | define r =>
    refine .bind (upholds_newSerial hm) fun serial m₁ h₁ _ => ?_
    refine .bind (upholds_currentFrame h₁.upheld) fun here m₂ h₂ hhere => ?_
    have hf : Closure.Heeds R ⟨serial, r, here, false⟩ := ⟨hhere.2, h.2⟩
    refine .bind (upholds_define h₂.upheld h.1 hf.value) fun _ m₃ h₃ _ => ?_
    exact .pure h₃.upheld trivial
  | classDef name parent methods =>
    refine .bind (upholds_defineClass heval hm h.1 h.2) fun _ m₁ h₁ _ => ?_
    exact .pure h₁.upheld trivial
  | evaluate e =>
    refine .bind (heval m e hm) fun _ m₁ h₁ _ => ?_
    exact .pure h₁.upheld trivial
  | branch condition whenTrue whenFalse =>
    refine .bind (heval m condition hm) fun v m₁ h₁ _ => ?_
    cases whenFalse with
    | none =>
      split
      · exact hexec m₁ kind whenTrue h₁.upheld h
      · exact .pure h₁.upheld trivial
    | some whenFalse =>
      split
      · exact hexec m₁ kind whenTrue h₁.upheld h.1
      · exact hexec m₁ kind whenFalse h₁.upheld h.2
  | print e =>
    refine .bind (heval m e hm) fun v m₁ h₁ _ => ?_
    refine .bind (upholds_printLine h₁.upheld v.display) fun _ m₂ h₂ _ => ?_
    exact .pure h₂.upheld trivial
  | giveBack keyword value =>
    refine .bind (upholds_evaluate? heval value hm) fun v m₁ h₁ hv => ?_
    exact .pure h₁.upheld ⟨hv.1, value.isSome, h, hv.2⟩
  | assign name value site =>
    refine .bind (upholds_evaluate? heval value hm) fun v m₁ h₁ hv => ?_
    refine .bind (upholds_assign h₁.upheld h hv.1 site) fun _ m₂ h₂ _ => ?_
    exact .pure h₂.upheld trivial
  | loop condition body =>
    refine upholds_repeatWhile (fun m₁ hm₁ => ?_) (fun m₁ hm₁ => hexec m₁ kind body hm₁ h) limits.repetitions hm
    refine .bind (heval m₁ condition hm₁) fun v m₂ h₂ _ => ?_
    exact .pure h₂.upheld trivial
  | unknown => exact upholds_throw hm _

end Parts

/-! ## Every depth -/

section Depth

variable {R : Rules}

theorem Upholds.guarded {m : Machine} {α : Type} {p q : Run α} {post : α → Machine → Prop}
    {condition : Machine → Prop} (alarm : Fault) (hm : condition m) (h : Upholds R m p q post) :
    Upholds R m (guarded condition alarm p) q post :=
  ⟨(if_pos hm).trans h.same, h.ends⟩

/-- **Evaluation by the rules, under watch.**  A condition that holds wherever the rules are upheld, of every
expression and of every statement that is written by the rules, holds at every node that a run comes to. -/
theorem upholds_watched {condition : Node → Machine → Prop}
    (hexpression : ∀ (e : Expr Distance) (m : Machine), m.Upheld R → condition (.expression e) m)
    (hstatement : ∀ (kind : Body) (s : Stmt Distance) (m : Machine), m.Upheld R → R.StmtHeeds kind s →
      condition (.statement s) m)
    (alarm : Fault) (limits : Limits) (depth : Nat) :
    EvaluatesBy R (watchedEvaluate condition alarm limits depth) (evaluate limits depth) ∧
      ExecutesBy R (watchedExecute condition alarm limits depth) (execute limits depth) := by
  induction depth with
  | zero =>
    constructor
    · intro m e hm
      exact (upholds_throw hm .overflow).guarded alarm (hexpression e m hm)
    · intro m kind s hm h
      exact (upholds_throw hm .overflow).guarded alarm (hstatement kind s m hm h)
  | succ depth ih =>
    obtain ⟨heval, hexec⟩ := ih
    constructor
    · intro m e hm
      exact (upholds_evaluateStep heval hexec m e hm).guarded alarm (hexpression e m hm)
    · intro m kind s hm h
      exact (upholds_executeStep limits heval hexec m kind s hm h).guarded alarm (hstatement kind s m hm h)

/-- Watched for nothing at all. -/
theorem upholds_unwatched (R : Rules) (limits : Limits) (depth : Nat) :
    EvaluatesBy R (watchedEvaluate (fun _ _ => True) .overflow limits depth) (evaluate limits depth) ∧
      ExecutesBy R (watchedExecute (fun _ _ => True) .overflow limits depth) (execute limits depth) :=
  upholds_watched (fun _ _ _ => trivial) (fun _ _ _ _ _ => trivial) .overflow limits depth

theorem upholds_evaluate (R : Rules) (limits : Limits) (depth : Nat) :
    EvaluatesBy R (evaluate limits depth) (evaluate limits depth) := by
  intro m e hm
  exact ⟨rfl, ((upholds_unwatched R limits depth).1 m e hm).ends⟩

theorem upholds_execute (R : Rules) (limits : Limits) (depth : Nat) :
    ExecutesBy R (execute limits depth) (execute limits depth) := by
  intro m kind s hm h
  exact ⟨rfl, ((upholds_unwatched R limits depth).2 m kind s hm h).ends⟩

/-- Evaluation comes back to the current frame. -/
theorem current_of_evaluate {limits : Limits} {depth : Nat} {e : Expr Distance} {m m' : Machine} {v : Value}
    (h : evaluate limits depth e m = .ok v m') : m'.current = m.current :=
  ((upholds_evaluate Rules.free limits depth m e m.upheld_free).ends.value_of_ok h).1.current

/-- Execution comes back to the current frame. -/
theorem current_of_execute {limits : Limits} {depth : Nat} {s : Stmt Distance} {m m' : Machine} {flow : Flow}
    (h : execute limits depth s m = .ok flow m') : m'.current = m.current :=
  ((upholds_execute Rules.free limits depth m .topLevel s m.upheld_free
    (Rules.liberal_free.stmt _ _)).ends.value_of_ok h).1.current

end Depth

end Run
end Offside
