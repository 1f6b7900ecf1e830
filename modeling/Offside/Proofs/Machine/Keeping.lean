import Offside.Proofs.Machine.Upkeep

/-!
# One step of evaluation keeps the account

A step of the evaluator keeps the account if the steps for its parts do.  Expressions bind no names and may be
evaluated anywhere; a statement is executed in a frame as many links deep as scopes were open around it, so
that what it binds at a distance does not reach the global frame unless it may.

* `Run.EvaluatesTidily`, `Run.ExecutesTidily` — evaluation and execution keep the account;
* `Run.keeps_bindMethod`, `Run.keeps_callClosure`, `Run.keeps_defineClass` and others — the helpers;
* `Run.keeps_evaluateStep`, `Run.keeps_executeStep` — one step over steps for the parts.
-/

set_option autoImplicit false

namespace Offside.Run

open Binding (Distance MayBind StmtWithin StmtsWithin RoutinesWithin routineWithin_iff declaredName?)

/-- Evaluating any expression keeps the account, and its value is known. -/
def EvaluatesTidily (G : List String) (evaluate evaluate' : Expr Distance → Run Value) : Prop :=
  ∀ (L : Ledger) (m : Machine) (e : Expr Distance), m.Tidy G L →
    Keeps G L m (evaluate e) (evaluate' e) Known

/-- What holds behind a statement: what it gives back is known, and the name that it declares is bound. -/
def Done (m : Machine) (s : Stmt Distance) (L : Ledger) (flow : Flow) (frames : Frames Value) : Prop :=
  flow.In L ∧ ∀ name ∈ declaredName? s, frames.Binds m.current name

/-- Executing a statement keeps the account if the statement binds only what it may bind, with as many scopes
open as the current frame is deep. -/
def ExecutesTidily (G : List String) (execute execute' : Stmt Distance → Run Flow) : Prop :=
  ∀ (L : Ledger) (m : Machine) (n : Nat) (s : Stmt Distance), m.Tidy G L →
    m.frames.Deep m.current n → StmtWithin G n s → Keeps G L m (execute s) (execute' s) (Done m s)

section Parts

variable {G : List String} {L : Ledger} {m : Machine} {n : Nat}
  {evaluate evaluate' : Expr Distance → Run Value} {execute execute' : Stmt Distance → Run Flow}

/-! ## Lists of expressions and statements -/

theorem keeps_evaluateAll (heval : EvaluatesTidily G evaluate evaluate') (es : List (Expr Distance))
    (hm : m.Tidy G L) :
    Keeps G L m (evaluateAll evaluate es) (evaluateAll evaluate' es) fun L' vs _ => ∀ v ∈ vs, v.In L' := by
  induction es generalizing L m with
  | nil => exact .pure hm nofun
  | cons e es ih =>
    refine .bind (heval L m e hm) fun L₁ v m₁ h₁ hv => ?_
    refine .bind (ih h₁.tidy) fun L₂ vs m₂ h₂ hvs => ?_
    exact .pure h₂.tidy (List.forall_mem_cons.2 ⟨hv.mono h₂.more, hvs⟩)

theorem keeps_executeAll (hexec : ExecutesTidily G execute execute') (ss : List (Stmt Distance))
    (hm : m.Tidy G L) (hdeep : m.frames.Deep m.current n) (h : StmtsWithin G n ss) :
    Keeps G L m (executeAll execute ss) (executeAll execute' ss) FlowKnown := by
  induction ss generalizing L m with
  | nil => exact .pure hm trivial
  | cons s ss ih =>
    refine .bind (hexec L m n s hm hdeep h.1) fun L₁ flow m₁ h₁ hflow => ?_
    cases flow with
    | next => exact ih h₁.tidy (h₁.deep hdeep) h.2.2
    | back v => exact .pure h₁.tidy hflow.1

theorem keeps_executeBlock (hexec : ExecutesTidily G execute execute') {body : List (Stmt Distance)}
    (hm : m.Tidy G L) (hdeep : m.frames.Deep m.current n) (h : StmtsWithin G (n + 1) body) :
    Keeps G L m (executeBlock execute body) (executeBlock execute' body) FlowKnown := by
  refine .bind (keeps_currentFrame hm) fun L₁ here m₁ h₁ hhere => ?_
  subst hhere
  refine .bind (keeps_newFrame h₁.tidy (hdeep.grow h₁.grows)) fun L₂ frame m₂ h₂ hframe => .inFrame ?_
  exact keeps_executeAll hexec body (h₂.tidy.of_eq rfl rfl rfl) hframe h

theorem keeps_repeatWhile {test test' : Run Bool} {body body' : Run Flow}
    (htest : ∀ (L : Ledger) (m : Machine), m.Tidy G L → Keeps G L m test test' fun _ _ _ => True)
    (hbody : ∀ (L : Ledger) (m : Machine), m.Tidy G L → m.frames.Deep m.current n →
      Keeps G L m body body' FlowKnown)
    (limit : Nat) (hm : m.Tidy G L) (hdeep : m.frames.Deep m.current n) :
    Keeps G L m (repeatWhile test body limit) (repeatWhile test' body' limit) FlowKnown := by
  induction limit generalizing L m with
  | zero => exact keeps_throw hm _
  | succ limit ih =>
    refine .bind (htest L m hm) fun L₁ holds m₁ h₁ _ => ?_
    cases holds with
    | false => exact .pure h₁.tidy trivial
    | true =>
      refine .bind (hbody L₁ m₁ h₁.tidy (h₁.deep hdeep)) fun L₂ flow m₂ h₂ hflow => ?_
      cases flow with
      | next => exact ih h₂.tidy (h₂.deep (h₁.deep hdeep))
      | back v => exact .pure h₂.tidy hflow

theorem keeps_lookUp (hm : m.Tidy G L) (t : Token) (site : Distance) :
    Keeps G L m (lookUp t site) (lookUp t site) Known := by
  cases site with
  | none => exact keeps_readGlobal hm t
  | some d =>
    refine .bind (keeps_currentFrame hm) fun L₁ here m₁ h₁ _ => ?_
    exact (keeps_readAt h₁.tidy here d t.lexeme).mono fun _ _ _ _ hv => hv.1

/-! ## Calls -/

theorem keeps_bindParams {frame : FrameId} (params : List Token) (arguments : List Value)
    (hm : m.Tidy G L) (hdeep : m.frames.Deep frame (n + 1)) (hparams : ∀ t ∈ params, Bindable t.lexeme)
    (hargs : ∀ v ∈ arguments, v.In L) :
    Keeps G L m (bindParams frame params arguments) (bindParams frame params arguments)
      fun _ _ _ => True := by
  induction params generalizing L m arguments with
  | nil => exact .pure hm trivial
  | cons param params ih =>
    cases arguments with
    | nil => exact .pure hm trivial
    | cons argument arguments =>
      obtain ⟨hparam, hparams⟩ := List.forall_mem_cons.1 hparams
      obtain ⟨harg, hargs⟩ := List.forall_mem_cons.1 hargs
      refine .bind (keeps_defineIn hm hdeep (Value.suits_of_bindable hparam _) nofun harg)
        fun L₁ _ m₁ h₁ _ => ?_
      exact ih arguments h₁.tidy (hdeep.grow h₁.grows) hparams fun v hv => (hargs v hv).mono h₁.more

/-- A method of the table is copied, and the frame of the copy binds the instance. -/
theorem keeps_bindMethod {method : Closure} {this : Value} (hm : m.Tidy G L)
    (hmethod : L.cells[method.serial]? = some (.method method)) (hthis : this.In L)
    (hobject : this.Suits "this") :
    Keeps G L m (bindMethod method this) (bindMethod method this)
      fun L' f _ => (Value.function f).In L' := by
  obtain ⟨-, k, hdeep, hwithin⟩ := hm.cells _ _ hmethod
  refine .bind (keeps_newFrame hm hdeep) fun L₁ frame m₁ h₁ hframe => ?_
  refine .bind (keeps_defineIn h₁.tidy hframe hobject nofun (hthis.mono h₁.more)) fun L₂ _ m₂ h₂ hbinds => ?_
  have hmethod₂ := h₂.more.cells _ _ (h₁.more.cells _ _ hmethod)
  have hearlier : method.serial < m₂.nextSerial := by
    rw [← h₂.tidy.serials]
    exact (List.getElem?_eq_some_iff.1 hmethod₂).1
  refine .bind (keeps_newSerial h₂.tidy (fun serial => .bound { method with serial := serial, frame := frame })
    fun L' hmore => ?_) fun L₃ serial m₃ h₃ hserial => ?_
  · exact ⟨rfl, ⟨method, hmore.cells _ _ hmethod₂, hearlier, rfl⟩, hbinds, k + 1,
      hframe.grow h₂.grows, hwithin⟩
  · exact .pure h₃.tidy (Or.inr hserial)

theorem keeps_callClosure (hexec : ExecutesTidily G execute execute') {f : Closure}
    {arguments : List Value} (hm : m.Tidy G L) (hf : (Value.function f).In L)
    (hargs : ∀ v ∈ arguments, v.In L) :
    Keeps G L m (callClosure execute f arguments) (callClosure execute' f arguments) Known := by
  obtain ⟨k, hdeep, hwithin⟩ := hm.within_of_function hf
  obtain ⟨hparams, hbody⟩ := routineWithin_iff.1 hwithin
  refine .bind (keeps_newFrame hm hdeep) fun L₁ frame m₁ h₁ hframe => ?_
  refine .bind (keeps_bindParams f.routine.params arguments h₁.tidy hframe hparams
    fun v hv => (hargs v hv).mono h₁.more) fun L₂ _ m₂ h₂ _ => ?_
  have hframe₂ := hframe.grow h₂.grows
  refine .bind (Keeps.inFrame
    (keeps_executeAll hexec f.routine.body (h₂.tidy.of_eq rfl rfl rfl) hframe₂ hbody))
    fun L₃ flow m₃ h₃ hflow => ?_
  split
  · exact (keeps_readAt h₃.tidy f.frame 0 "this").mono fun _ _ _ _ hv => hv.1
  · cases flow with
    | next => exact .pure h₃.tidy trivial
    | back v => exact .pure h₃.tidy hflow

theorem keeps_callClass (hexec : ExecutesTidily G execute execute') {c : Class} {arguments : List Value}
    (hm : m.Tidy G L) (hc : (Value.classValue c).In L) (hargs : ∀ v ∈ arguments, v.In L) :
    Keeps G L m (callClass execute c arguments) (callClass execute' c arguments) Known := by
  refine .bind (keeps_newInstance hm hc) fun L₁ id m₁ h₁ hmade => ?_
  cases hinit : c.initializer? with
  | none => exact .pure h₁.tidy hmade
  | some method =>
    have hmethod := h₁.tidy.method_of_findMethod? (hc.mono h₁.more) hinit
    refine .bind (keeps_bindMethod h₁.tidy hmethod hmade (Value.suits_object id c)) fun L₂ f m₂ h₂ hf => ?_
    refine .bind (keeps_callClosure hexec h₂.tidy hf
      fun v hv => (hargs v hv).mono (h₁.more.trans h₂.more)) fun L₃ _ m₃ h₃ _ => ?_
    exact .pure h₃.tidy (hmade.mono (h₂.more.trans h₃.more))

theorem keeps_call (hexec : ExecutesTidily G execute execute') (paren : Token) {callee : Value}
    {arguments : List Value} (hm : m.Tidy G L) (hcallee : callee.In L) (hargs : ∀ v ∈ arguments, v.In L) :
    Keeps G L m (call execute paren callee arguments) (call execute' paren callee arguments) Known := by
  cases callee with
  | function f => exact keeps_callClosure hexec hm hcallee hargs
  | native serial f => exact keeps_callNative hm paren f hargs
  | classValue c => exact keeps_callClass hexec hm hcallee hargs
  | _ => exact keeps_fail hm _ _

/-! ## Fields and methods -/

theorem keeps_getField (field : Token) {target : Value} (hm : m.Tidy G L) (htarget : target.In L) :
    Keeps G L m (getField field target) (getField field target) Known := by
  cases target with
  | object id c =>
    refine .bind (keeps_readField? hm id field.lexeme) fun L₁ found m₁ h₁ hfound => ?_
    cases found with
    | some v => exact .pure h₁.tidy (hfound v rfl)
    | none =>
      cases hmethod : c.findMethod? field.lexeme with
      | none => exact keeps_fail h₁.tidy _ _
      | some method =>
        have htarget₁ := htarget.mono h₁.more
        have hclass : (Value.classValue c).In L₁ := h₁.tidy.classes id c htarget₁
        refine .bind (keeps_bindMethod h₁.tidy (h₁.tidy.method_of_findMethod? hclass hmethod) htarget₁
          (Value.suits_object id c)) fun L₂ f m₂ h₂ hf => ?_
        exact .pure h₂.tidy hf
  | _ => exact keeps_fail hm _ _

theorem keeps_getSuper (method : Token) (site : Distance) (hm : m.Tidy G L) :
    Keeps G L m (getSuper method site) (getSuper method site) Known := by
  cases site with
  | none => exact keeps_throw hm _
  | some d =>
    refine .bind (keeps_currentFrame hm) fun L₁ here m₁ h₁ _ => ?_
    refine .bind (keeps_readAt h₁.tidy here d "super") fun L₂ parent m₂ h₂ ⟨hparent, _⟩ => ?_
    refine .bind (keeps_readAt h₂.tidy here (d - 1) "this") fun L₃ this m₃ h₃ ⟨hthis, hobject⟩ => ?_
    cases parent with
    | classValue c =>
      cases hmethod : c.findMethod? method.lexeme with
      | none =>
        simp only [hmethod]
        exact keeps_fail h₃.tidy _ _
      | some f =>
        simp only [hmethod]
        have hc := h₃.tidy.method_of_findMethod? (hparent.mono h₃.more) hmethod
        refine .bind (keeps_bindMethod h₃.tidy hc hthis hobject) fun L₄ bound m₄ h₄ hbound => ?_
        exact .pure h₄.tidy hbound
    | _ => exact keeps_throw h₃.tidy _

/-! ## Classes -/

/-- The methods of a class are made before the class. -/
theorem keeps_makeMethods {frame : FrameId} (rs : List (Routine Distance)) {table : Bindings Closure}
    (hm : m.Tidy G L) (hdeep : m.frames.Deep frame n) (hwithin : RoutinesWithin G (n + 1) rs)
    (htable : ∀ name f, table.get? name = some f → L.cells[f.serial]? = some (.method f)) :
    Keeps G L m (makeMethods frame rs table) (makeMethods frame rs table)
      fun L' table _ => ∀ name f, table.get? name = some f → L'.cells[f.serial]? = some (.method f) := by
  induction rs generalizing L m table with
  | nil => exact .pure hm htable
  | cons r rs ih =>
    refine .bind (keeps_newSerial hm (fun serial => .method ⟨serial, r, frame, r.isInitializer⟩)
      fun L' _ => ⟨rfl, n, hdeep, hwithin.1⟩) fun L₁ serial m₁ h₁ hserial => ?_
    refine ih h₁.tidy (hdeep.grow h₁.grows) hwithin.2 fun name f hf => ?_
    by_cases hname : r.name.lexeme = name
    · rw [hname, Bindings.get?_put_self] at hf
      obtain rfl := Option.some.inj hf
      exact hserial
    · rw [Bindings.get?_put_of_ne hname] at hf
      exact h₁.more.cells _ _ (htable name f hf)

theorem keeps_superclassOf (heval : EvaluatesTidily G evaluate evaluate')
    (parent : Option (Token × Distance)) (hm : m.Tidy G L) :
    Keeps G L m (superclassOf parent evaluate) (superclassOf parent evaluate')
      fun L' found _ => found.isSome = parent.isSome ∧ ∀ c ∈ found, (Value.classValue c).In L' := by
  cases parent with
  | none => exact .pure hm ⟨rfl, nofun⟩
  | some p =>
    refine .bind (heval L m _ hm) fun L₁ v m₁ h₁ hv => ?_
    cases v with
    | classValue c => exact .pure h₁.tidy ⟨rfl, fun _ hc => Option.some.inj hc ▸ hv⟩
    | _ => exact keeps_fail h₁.tidy _ _

theorem keeps_methodFrame {parent : Option Class} (hm : m.Tidy G L)
    (hdeep : m.frames.Deep m.current n) (hparent : ∀ c ∈ parent, (Value.classValue c).In L) :
    Keeps G L m (methodFrame parent) (methodFrame parent)
      fun _ frame frames => frames.Deep frame (if parent.isSome then n + 1 else n) := by
  refine .bind (keeps_currentFrame hm) fun L₁ here m₁ h₁ hhere => ?_
  subst hhere
  have hdeep₁ := hdeep.grow h₁.grows
  cases parent with
  | none => exact .pure h₁.tidy hdeep₁
  | some c =>
    refine .bind (keeps_newFrame h₁.tidy hdeep₁) fun L₂ frame m₂ h₂ hframe => ?_
    refine .bind (keeps_defineIn h₂.tidy hframe ⟨fun he => absurd he (by decide), fun _ => ⟨c, rfl⟩⟩ nofun
      ((hparent c rfl).mono (h₁.more.trans h₂.more))) fun L₃ _ m₃ h₃ _ => ?_
    exact .pure h₃.tidy (hframe.grow h₃.grows)

/-- A class is made behind its superclass and its methods. -/
theorem keeps_defineClass (heval : EvaluatesTidily G evaluate evaluate') {name : Token}
    {parent : Option (Token × Distance)} {methods : List (Routine Distance)} (hm : m.Tidy G L)
    (hdeep : m.frames.Deep m.current n) (hname : MayBind G n 0 name.lexeme)
    (hmethods : RoutinesWithin G ((if parent.isSome then n + 1 else n) + 1) methods) :
    Keeps G L m (defineClass evaluate name parent methods) (defineClass evaluate' name parent methods)
      fun _ _ frames => frames.Binds m.current name.lexeme := by
  refine .bind (keeps_superclassOf heval parent hm) fun L₁ found m₁ h₁ ⟨hsome, hfound⟩ => ?_
  have hnull : Value.null.In L₁ := trivial
  refine .bind (keeps_define h₁.tidy (h₁.deep hdeep) hname hnull) fun L₂ _ m₂ h₂ _ => ?_
  have hdeep₂ := h₂.deep (h₁.deep hdeep)
  have hfound₂ := fun c hc => (hfound c hc).mono h₂.more
  refine .bind (keeps_methodFrame h₂.tidy hdeep₂ hfound₂) fun L₃ frame m₃ h₃ hframe => ?_
  rw [hsome] at hframe
  refine .bind (keeps_makeMethods methods h₃.tidy hframe hmethods nofun) fun L₄ table m₄ h₄ htable => ?_
  have hearlier : ∀ serial cell, L₄.cells[serial]? = some cell → serial < m₄.nextSerial := by
    intro serial cell hcell
    rw [← h₄.tidy.serials]
    exact (List.getElem?_eq_some_iff.1 hcell).1
  refine .bind (keeps_newSerial h₄.tidy (fun serial => .classDef ⟨⟨serial, name.lexeme, table⟩,
    found.elim [] Class.lineage⟩) fun L' hmore => ?_) fun L₅ serial m₅ h₅ hserial => ?_
  · refine ⟨rfl, ?_, ?_⟩
    · intro method f hf
      exact ⟨hmore.cells _ _ (htable method f hf), hearlier _ _ (htable method f hf)⟩
    · cases found with
      | none => exact Or.inl rfl
      | some c =>
        have hc := h₄.more.cells _ _ (h₃.more.cells _ _ (hfound₂ c rfl))
        exact Or.inr ⟨c, hmore.cells _ _ hc, hearlier _ _ hc, rfl⟩
  · have hdeep₅ := h₅.deep (h₄.deep (h₃.deep hdeep₂))
    have hcurrent : m₅.current = m.current :=
      h₅.current.trans (h₄.current.trans (h₃.current.trans (h₂.current.trans h₁.current)))
    rw [← hcurrent]
    cases found with
    | none => exact keeps_define h₅.tidy hdeep₅ hname hserial
    | some c => exact keeps_define h₅.tidy hdeep₅ hname hserial

/-! ## One step -/

theorem keeps_evaluateCall (heval : EvaluatesTidily G evaluate evaluate')
    (hexec : ExecutesTidily G execute execute') (callee : Expr Distance) (paren : Token)
    (arguments : List (Expr Distance)) (hm : m.Tidy G L) :
    Keeps G L m (evaluateCall evaluate execute callee paren arguments)
      (evaluateCall evaluate' execute' callee paren arguments) Known := by
  refine .bind (heval L m callee hm) fun L₁ f m₁ h₁ hf => ?_
  cases f.arity? with
  | none => exact keeps_fail h₁.tidy _ _
  | some arity =>
    simp only
    split
    · refine .bind (keeps_evaluateAll heval arguments h₁.tidy) fun L₂ values m₂ h₂ hvalues => ?_
      exact keeps_call hexec paren h₂.tidy (hf.mono h₂.more) hvalues
    · exact keeps_fail h₁.tidy _ _

/-- **One step of evaluation keeps the account** if evaluating and executing its parts does. -/
theorem keeps_evaluateStep (heval : EvaluatesTidily G evaluate evaluate')
    (hexec : ExecutesTidily G execute execute') :
    EvaluatesTidily G (evaluateStep evaluate execute) (evaluateStep evaluate' execute') := by
  intro L m e hm
  cases e with
  | literal value => exact .pure hm (Value.in_ofLiteral L value)
  | group inner => exact heval L m inner hm
  | unary operator operand =>
    refine .bind (heval L m operand hm) fun L₁ v m₁ h₁ _ => ?_
    exact keeps_unary h₁.tidy operator v
  | binary left operator right =>
    refine .bind (heval L m left hm) fun L₁ l m₁ h₁ _ => ?_
    refine .bind (heval L₁ m₁ right h₁.tidy) fun L₂ r m₂ h₂ _ => ?_
    exact keeps_binary h₂.tidy operator l r
  | logical left operator right =>
    refine .bind (heval L m left hm) fun L₁ l m₁ h₁ hl => ?_
    split
    · exact .pure h₁.tidy hl
    · exact heval L₁ m₁ right h₁.tidy
  | name token site => exact keeps_lookUp hm token site
  | setField object field value =>
    refine .bind (heval L m object hm) fun L₁ target m₁ h₁ _ => ?_
    cases target with
    | object id c =>
      refine .bind (heval L₁ m₁ value h₁.tidy) fun L₂ v m₂ h₂ hv => ?_
      refine .bind (keeps_writeField h₂.tidy id field.lexeme hv) fun L₃ _ m₃ h₃ _ => ?_
      exact .pure h₃.tidy (hv.mono h₃.more)
    | _ => exact keeps_fail h₁.tidy _ _
  | getField object field =>
    refine .bind (heval L m object hm) fun L₁ target m₁ h₁ htarget => ?_
    exact keeps_getField field h₁.tidy htarget
  | call callee paren arguments => exact keeps_evaluateCall heval hexec callee paren arguments hm
  | thisRef keyword site => exact keeps_lookUp hm keyword site
  | superRef keyword method site => exact keeps_getSuper method site hm
  | unknown => exact keeps_throw hm _

theorem keeps_evaluate? (heval : EvaluatesTidily G evaluate evaluate') (e : Option (Expr Distance))
    (hm : m.Tidy G L) : Keeps G L m (evaluate? evaluate e) (evaluate? evaluate' e) Known := by
  cases e with
  | none => exact .pure hm trivial
  | some e => exact heval L m e hm

/-- A statement that declares no name. -/
theorem Keeps.done {s : Stmt Distance} {p q : Run Flow} (h : Keeps G L m p q FlowKnown)
    (hs : declaredName? s = none) : Keeps G L m p q (Done m s) := by
  refine h.mono fun L' flow m' _ hflow => ⟨hflow, ?_⟩
  rw [hs]
  exact nofun

/-- A statement that is executed in place of another. -/
theorem ExecutesTidily.known (hexec : ExecutesTidily G execute execute') {s : Stmt Distance}
    (hm : m.Tidy G L) (hdeep : m.frames.Deep m.current n) (h : StmtWithin G n s) :
    Keeps G L m (execute s) (execute' s) FlowKnown :=
  (hexec L m n s hm hdeep h).mono fun _ _ _ _ hflow => hflow.1

theorem keeps_assign {name : Token} {value : Value} {site : Distance} (source : Option (Expr Distance))
    (hm : m.Tidy G L) (hdeep : m.frames.Deep m.current n)
    (h : StmtWithin G n (.assign name source site)) (hv : value.In L) :
    Keeps G L m (assign name.lexeme value site) (assign name.lexeme value site)
      fun _ _ frames => ∀ x ∈ declaredName? (.assign name source site), frames.Binds m.current x := by
  cases site with
  | none =>
    refine (keeps_define hm hdeep h hv).mono fun _ _ m' _ hbinds x hx => ?_
    obtain rfl := Option.some.inj hx
    exact hbinds
  | some d => exact (keeps_defineAt hm hdeep h hv).mono fun _ _ _ _ _ => nofun

/-- **One step of execution keeps the account** if evaluating and executing its parts does. -/
theorem keeps_executeStep (limits : Limits) (heval : EvaluatesTidily G evaluate evaluate')
    (hexec : ExecutesTidily G execute execute') :
    ExecutesTidily G (executeStep limits evaluate execute) (executeStep limits evaluate' execute') := by
  intro L m n s hm hdeep h
  cases s with
  | block body => exact (keeps_executeBlock hexec hm hdeep h).done rfl
  | define r =>
    refine .bind (keeps_newSerial hm (fun serial => .function ⟨serial, r, m.current, false⟩)
      fun L' _ => ⟨rfl, rfl, n, hdeep, h.2⟩) fun L₁ serial m₁ h₁ hserial => ?_
    refine .bind (keeps_currentFrame h₁.tidy) fun L₂ here m₂ h₂ hhere => ?_
    subst hhere
    have hcurrent : m₂.current = m.current := h₂.current.trans h₁.current
    have hvalue : (Value.function ⟨serial, r, m₁.current, false⟩).In L₂ := by
      rw [h₁.current]
      exact Or.inl (h₂.more.cells _ _ hserial)
    refine .bind (keeps_define h₂.tidy (h₂.deep (h₁.deep hdeep)) h.1 hvalue) fun L₃ _ m₃ h₃ hbinds => ?_
    refine .pure h₃.tidy ⟨trivial, ?_⟩
    intro name hname
    obtain rfl := Option.some.inj hname
    rw [← hcurrent]
    exact hbinds
  | classDef name parent methods =>
    refine .bind (keeps_defineClass heval hm hdeep h.1 h.2) fun L₁ _ m₁ h₁ hbinds => ?_
    refine .pure h₁.tidy ⟨trivial, ?_⟩
    intro name hname
    obtain rfl := Option.some.inj hname
    exact hbinds
  | evaluate e =>
    refine Keeps.done ?_ rfl
    refine .bind (heval L m e hm) fun L₁ _ m₁ h₁ _ => ?_
    exact .pure h₁.tidy trivial
  | branch condition whenTrue whenFalse =>
    refine Keeps.done ?_ rfl
    refine .bind (heval L m condition hm) fun L₁ v m₁ h₁ _ => ?_
    have hdeep₁ := h₁.deep hdeep
    cases whenFalse with
    | none =>
      split
      · exact hexec.known h₁.tidy hdeep₁ h
      · exact .pure h₁.tidy trivial
    | some other =>
      split
      · exact hexec.known h₁.tidy hdeep₁ h.1
      · exact hexec.known h₁.tidy hdeep₁ h.2
  | print e =>
    refine Keeps.done ?_ rfl
    refine .bind (heval L m e hm) fun L₁ v m₁ h₁ _ => ?_
    refine .bind (keeps_printLine h₁.tidy v.display) fun L₂ _ m₂ h₂ _ => ?_
    exact .pure h₂.tidy trivial
  | giveBack keyword value =>
    refine Keeps.done ?_ rfl
    refine .bind (keeps_evaluate? heval value hm) fun L₁ v m₁ h₁ hv => ?_
    exact .pure h₁.tidy hv
  | assign name value site =>
    refine .bind (keeps_evaluate? heval value hm) fun L₁ v m₁ h₁ hv => ?_
    refine .bind (keeps_assign value h₁.tidy (h₁.deep hdeep) h hv) fun L₂ _ m₂ h₂ hbinds => ?_
    rw [h₁.current] at hbinds
    exact .pure h₂.tidy ⟨trivial, hbinds⟩
  | loop condition body =>
    refine Keeps.done ?_ rfl
    refine keeps_repeatWhile (fun L m hm => ?_) (fun L m hm hdeep => ?_) limits.repetitions hm hdeep
    · refine .bind (heval L m condition hm) fun L₁ _ m₁ h₁ _ => ?_
      exact .pure h₁.tidy trivial
    · exact hexec.known hm hdeep h
  | unknown => exact keeps_throw hm _

end Parts

end Offside.Run
