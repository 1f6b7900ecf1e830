import Offside.Proofs.Machine.Faithful

/-!
# One step of evaluation

A step of the evaluator is faithful if the steps for its parts are.  The scopes around a part are those in
which it was visited: one more for a block, those that a function remembers for its body, and behind a
statement the scopes with its name declared.

* `Tour.Evaluates`, `Tour.Executes` — evaluation and execution of whatever fits is faithful;
* `Tour.faithful_evaluateStep`, `Tour.faithful_executeStep` — one step over faithful steps for the parts.
-/

set_option autoImplicit false

namespace Offside.Tour

open Binding (Visit Path Scope Ready Distance enter declared paramScope classScopes ExprFits ExprsFit StmtFits
  StmtsFit RoutinesFit boundName?)

/-- Evaluating an expression along its path, in a frame whose chain mirrors the scopes around it, is faithful. -/
def Evaluates (V : List Visit) (evaluate : Path → Expr Distance → Tour Value)
    (evaluate' : Expr Distance → Run Value) : Prop :=
  ∀ (t : Toured) (path : Path) (scopes : List Scope) (e : Expr Distance), t.Sound V →
    t.machine.frames.Mirrors t.machine.current scopes → ExprFits V path scopes e →
      Faithful V t (evaluate path e) (evaluate' e) fun v t' => v.Fits V t'

/-- What holds behind a statement: if the statements that follow are executed next, the chain of the current
frame mirrors the scopes around them. -/
def Passed (V : List Visit) (t : Toured) (scopes : List Scope) (s : Stmt Distance) (flow : Flow)
    (t' : Toured) : Prop :=
  flow.Fits V t' ∧ (flow = .next → t'.machine.frames.Mirrors t.machine.current (declared s scopes))

/-- Executing a statement along its path, in a frame whose chain mirrors the scopes around it, is faithful. -/
def Executes (V : List Visit) (execute : Path → Stmt Distance → Tour Flow)
    (execute' : Stmt Distance → Run Flow) : Prop :=
  ∀ (t : Toured) (path : Path) (scopes : List Scope) (s : Stmt Distance), t.Sound V →
    t.machine.frames.Mirrors t.machine.current scopes → StmtFits V path scopes s →
      Faithful V t (execute path s) (execute' s) (Passed V t scopes s)

section Parts

variable {V : List Visit} {t : Toured} {path : Path} {scopes : List Scope}
  {evaluate : Path → Expr Distance → Tour Value} {evaluate' : Expr Distance → Run Value}
  {execute : Path → Stmt Distance → Tour Flow} {execute' : Stmt Distance → Run Flow}

/-! ## Lists of expressions and statements -/

theorem faithful_evaluateAll (heval : Evaluates V evaluate evaluate') {i : Nat} (es : List (Expr Distance))
    (ht : t.Sound V) (hmir : t.machine.frames.Mirrors t.machine.current scopes)
    (h : ExprsFit V path i scopes es) :
    Faithful V t (evaluateAll evaluate path i es) (Run.evaluateAll evaluate' es)
      fun vs t' => vs.length = es.length ∧ ∀ v ∈ vs, v.Fits V t' := by
  induction es generalizing t i with
  | nil => exact .pure ht ⟨rfl, fun _ hv => nomatch hv⟩
  | cons e es ih =>
    refine .bind (heval t _ scopes e ht hmir h.1) fun v t₁ h₁ hv => ?_
    refine .bind (ih h₁.sound (h₁.mirrors hmir) h.2) fun vs t₂ h₂ hvs => ?_
    refine .pure h₂.sound ⟨congrArg (· + 1) hvs.1, ?_⟩
    exact List.forall_mem_cons.2 ⟨hv.grow h₂.grows, hvs.2⟩

theorem faithful_executeAll (hexec : Executes V execute execute') {i : Nat} (ss : List (Stmt Distance))
    (ht : t.Sound V) (hmir : t.machine.frames.Mirrors t.machine.current scopes)
    (h : StmtsFit V path i scopes ss) :
    Faithful V t (executeAll execute path i ss) (Run.executeAll execute' ss) fun flow t' => flow.Fits V t' := by
  induction ss generalizing t i scopes with
  | nil => exact .pure ht trivial
  | cons s ss ih =>
    refine .bind (hexec t _ scopes s ht hmir h.1) fun flow t₁ h₁ hflow => ?_
    cases flow with
    | next => exact ih h₁.sound (h₁.current ▸ hflow.2 rfl) h.2
    | back v => exact .pure h₁.sound hflow.1

/-- Which frame is current does not matter to what is given back. -/
theorem Flow.Fits.move {flow : Flow} (h : flow.Fits V t) (frame : FrameId) :
    flow.Fits V { t with machine := { t.machine with current := frame } } := by
  cases flow with
  | next => trivial
  | back v => exact Value.Fits.grow h (Toured.grows_of_frames (.refl _))

theorem faithful_executeBlock (hexec : Executes V execute execute') {body : List (Stmt Distance)}
    (ht : t.Sound V) (hmir : t.machine.frames.Mirrors t.machine.current scopes)
    (h : StmtsFit V path 0 ([] :: scopes) body) :
    Faithful V t (executeBlock execute path body) (Run.executeBlock execute' body)
      fun flow t' => flow.Fits V t' := by
  refine .bind (faithful_currentFrame ht) fun here t₁ h₁ hhere => ?_
  subst hhere
  refine .bind (faithful_newFrame h₁.sound (hmir.grow h₁.grows.frames)) fun frame t₂ h₂ hframe => ?_
  exact .inFrame (faithful_executeAll hexec body (h₂.sound.of_eq rfl rfl rfl) hframe h)
    fun _ _ _ hflow => Flow.Fits.move hflow _

/-- A loop: whatever its test and its body do, the frame goes on mirroring the scopes around it. -/
theorem faithful_repeatWhile {test : Tour Bool} {test' : Run Bool} {body : Tour Flow} {body' : Run Flow}
    (htest : ∀ t : Toured, t.Sound V → t.machine.frames.Mirrors t.machine.current scopes →
      Faithful V t test test' fun _ _ => True)
    (hbody : ∀ t : Toured, t.Sound V → t.machine.frames.Mirrors t.machine.current scopes →
      Faithful V t body body' fun flow t' => flow.Fits V t')
    (limit : Nat) (ht : t.Sound V) (hmir : t.machine.frames.Mirrors t.machine.current scopes) :
    Faithful V t (repeatWhile test body limit) (Run.repeatWhile test' body' limit)
      fun flow t' => flow.Fits V t' := by
  induction limit generalizing t with
  | zero => exact faithful_throw ht trivial
  | succ limit ih =>
    refine .bind (htest t ht hmir) fun holds t₁ h₁ _ => ?_
    cases holds with
    | false => exact .pure h₁.sound trivial
    | true =>
      refine .bind (hbody t₁ h₁.sound (h₁.mirrors hmir)) fun flow t₂ h₂ hflow => ?_
      cases flow with
      | next => exact ih h₂.sound (h₂.mirrors (h₁.mirrors hmir))
      | back v => exact .pure h₂.sound hflow

/-! ## Names -/

theorem faithful_lookUp {token : Token} {site : Distance} (ht : t.Sound V)
    (hmir : t.machine.frames.Mirrors t.machine.current scopes) (h : ∀ d ∈ site, Ready scopes d token.lexeme) :
    Faithful V t (lift (Run.lookUp token site)) (Run.lookUp token site) fun v t' => v.Fits V t' := by
  cases site with
  | none => exact faithful_readGlobal ht token
  | some d =>
    refine .lifted (faithful_currentFrame ht) fun here t₁ h₁ hhere => ?_
    subst hhere
    exact (faithful_readAt h₁.sound (hmir.grow h₁.grows.frames) (h d rfl)).mono fun v _ _ hv => hv.1

/-! ## Calls -/

/-- Binding the parameters of a call turns the empty scope of its frame into that of the parameters. -/
theorem faithful_bindParams {frame : FrameId} {scope : Scope} (params : List Token)
    (arguments : List Value) (ht : t.Sound V) (hmir : t.machine.frames.Mirrors frame (scope :: scopes))
    (hlength : arguments.length = params.length) (hparams : ∀ token ∈ params, Bindable token.lexeme)
    (hargs : ∀ v ∈ arguments, v.Fits V t) :
    Faithful V t (lift (Run.bindParams frame params arguments)) (Run.bindParams frame params arguments)
      fun _ t' => t'.machine.frames.Mirrors frame ((paramScope params ++ scope) :: scopes) := by
  induction params generalizing t scope arguments with
  | nil => exact faithful_value ht hmir
  | cons param params ih =>
    cases arguments with
    | nil => cases hlength
    | cons argument arguments =>
      obtain ⟨hparam, hparams⟩ := List.forall_mem_cons.1 hparams
      obtain ⟨harg, hargs⟩ := List.forall_mem_cons.1 hargs
      refine .lifted (faithful_defineIn ht hmir (Value.suits_of_bindable hparam _)
        fun t' hg _ => harg.grow hg) fun _ t₁ h₁ hmir₁ => ?_
      have hrest := ih arguments h₁.sound hmir₁ (Nat.succ.inj hlength) hparams
        fun v hv => (hargs v hv).grow h₁.grows
      simpa only [paramScope, List.map_cons, List.reverse_cons, List.append_assoc, List.singleton_append]
        using hrest

theorem faithful_bindMethod {method : Closure} {this : Value} (ht : t.Sound V)
    (hmethod : method.FitsMethod V t) (hthis : this.Fits V t) (hobject : this.Suits "this") :
    Faithful V t (bindMethod method this) (Run.bindMethod method this)
      fun f t' => f.Fits V t' ∧ f.routine = method.routine := by
  obtain ⟨path, outer, horigin, hmir, hfits⟩ := hmethod
  refine .bind (faithful_newFrame ht hmir) fun frame t₁ h₁ hframe => ?_
  refine .bind (faithful_defineIn h₁.sound hframe hobject fun t' hg _ => hthis.grow (h₁.grows.trans hg))
    fun _ t₂ h₂ hframe₂ => ?_
  refine .origin ((h₁.grows.trans h₂.grows).origins _ _ horigin) ?_
  refine .bind (faithful_newFunction h₂.sound path) fun serial t₃ h₃ hserial => ?_
  exact .pure h₃.sound ⟨⟨path, _, hserial, hframe₂.grow h₃.grows.frames, hfits, fun _ => ⟨_, rfl, rfl⟩⟩, rfl⟩

/-- The body of a function runs in a frame of its own, inside the frame that the function remembers. -/
theorem faithful_callClosure (hexec : Executes V execute execute') {f : Closure} {arguments : List Value}
    (ht : t.Sound V) (hf : f.Fits V t) (hlength : arguments.length = f.routine.params.length)
    (hargs : ∀ v ∈ arguments, v.Fits V t) :
    Faithful V t (callClosure execute f arguments) (Run.callClosure execute' f arguments)
      fun v t' => v.Fits V t' := by
  obtain ⟨path, outer, horigin, hmir, hfits, hinit⟩ := hf
  obtain ⟨hparams, hbody⟩ := Binding.routineFits_iff.1 hfits
  refine .bind (faithful_newFrame ht hmir) fun frame t₁ h₁ hframe => ?_
  refine .bind (faithful_bindParams f.routine.params arguments h₁.sound hframe hlength hparams
    fun v hv => (hargs v hv).grow h₁.grows) fun _ t₂ h₂ hframe₂ => ?_
  rw [List.append_nil] at hframe₂
  refine .origin ((h₁.grows.trans h₂.grows).origins _ _ horigin) ?_
  refine .bind (Faithful.inFrame
    (faithful_executeAll hexec f.routine.body (h₂.sound.of_eq rfl rfl rfl) hframe₂ hbody)
    fun _ _ _ hflow => Flow.Fits.move hflow _) fun flow t₃ h₃ hflow => ?_
  split
  · next hi =>
    have hmir₃ := hmir.grow (h₁.grows.trans (h₂.grows.trans h₃.grows)).frames
    exact (faithful_readAt h₃.sound hmir₃ (hinit hi)).mono fun v _ _ hv => hv.1
  · cases flow with
    | next => exact .pure h₃.sound trivial
    | back v => exact .pure h₃.sound hflow

theorem faithful_callClass (hexec : Executes V execute execute') {c : Class} {arguments : List Value}
    (ht : t.Sound V) (hc : c.Fits V t)
    (hlength : ∀ f ∈ c.initializer?, arguments.length = f.routine.params.length)
    (hargs : ∀ v ∈ arguments, v.Fits V t) :
    Faithful V t (callClass execute c arguments) (Run.callClass execute' c arguments)
      fun v t' => v.Fits V t' := by
  refine .bind (faithful_newInstance ht) fun id t₁ h₁ _ => ?_
  have hmade : (Value.object id c).Fits V t₁ := hc.grow h₁.grows
  cases hi : c.initializer? with
  | none => exact .pure h₁.sound hmade
  | some method =>
    have hmethod := (hc.findMethod? hi).grow h₁.grows
    refine .bind (faithful_bindMethod h₁.sound hmethod hmade (Value.suits_object id c))
      fun bound t₂ h₂ ⟨hbound, hroutine⟩ => ?_
    refine .bind (faithful_callClosure hexec h₂.sound hbound (hroutine ▸ hlength method hi)
      fun v hv => (hargs v hv).grow (h₁.grows.trans h₂.grows)) fun _ t₃ h₃ _ => ?_
    exact .pure h₃.sound (hmade.grow (h₂.grows.trans h₃.grows))

/-- The clock gives a double. -/
theorem faithful_callNative (ht : t.Sound V) (paren : Token) {f : Native} (hf : f = .clock) :
    Faithful V t (lift (Run.callNative paren f [])) (Run.callNative paren f []) fun v t' => v.Fits V t' := by
  subst hf
  exact .of_ok rfl (.refl ht) ⟨t.machine.time, rfl⟩

theorem faithful_call (hexec : Executes V execute execute') (paren : Token) {callee : Value} {arity : Nat}
    {arguments : List Value} (ht : t.Sound V) (hcallee : callee.Fits V t)
    (harity : callee.arity? = some arity) (hlength : arguments.length = arity)
    (hargs : ∀ v ∈ arguments, v.Fits V t) :
    Faithful V t (call execute paren callee arguments) (Run.call execute' paren callee arguments)
      fun v t' => v.Fits V t' := by
  cases callee with
  | function f =>
    exact faithful_callClosure hexec ht hcallee (hlength.trans (Option.some.inj harity).symm) hargs
  | native serial f =>
    have hclock : f = .clock := hcallee
    have hzero : arguments.length = 0 := by
      rw [hlength, ← Option.some.inj harity, hclock]
      rfl
    rw [List.eq_nil_of_length_eq_zero hzero]
    exact faithful_callNative ht paren hclock
  | classValue c =>
    refine faithful_callClass hexec ht hcallee (fun f hf => ?_) hargs
    have hparams : (c.initializer?.map fun f => f.routine.params.length).getD 0 = arity :=
      Option.some.inj harity
    rw [Option.mem_def.1 hf] at hparams
    exact hlength.trans hparams.symm
  | _ => cases harity

/-! ## Fields and methods -/

theorem faithful_getField (field : Token) {target : Value} (ht : t.Sound V) (htarget : target.Fits V t) :
    Faithful V t (getField field target) (Run.getField field target) fun v t' => v.Fits V t' := by
  cases target with
  | object id c =>
    refine .bind (faithful_readField? ht id field.lexeme) fun found t₁ h₁ hfound => ?_
    cases found with
    | some v => exact .pure h₁.sound (hfound v rfl)
    | none =>
      cases hmethod : c.findMethod? field.lexeme with
      | none => exact faithful_fail h₁.sound _ _
      | some method =>
        have htarget₁ := htarget.grow h₁.grows
        refine .bind (faithful_bindMethod h₁.sound (Class.Fits.findMethod? htarget₁ hmethod) htarget₁
          (Value.suits_object id c)) fun bound t₂ h₂ hbound => ?_
        exact .pure h₂.sound hbound.1
  | _ => exact faithful_fail ht _ _

/-- The superclass is found at its distance and the instance one step inside it. -/
theorem faithful_getSuper (method : Token) {d : Nat} (ht : t.Sound V)
    (hmir : t.machine.frames.Mirrors t.machine.current scopes) (hsuper : Ready scopes (d + 1) "super")
    (hthis : Ready scopes d "this") :
    Faithful V t (getSuper method (some (d + 1))) (Run.getSuper method (some (d + 1)))
      fun v t' => v.Fits V t' := by
  refine .bind (faithful_currentFrame ht) fun here t₁ h₁ hhere => ?_
  subst hhere
  have hmir₁ := hmir.grow h₁.grows.frames
  refine .bind (faithful_readAt h₁.sound hmir₁ hsuper) fun parent t₂ h₂ ⟨hparent, hclass⟩ => ?_
  refine .bind (faithful_readAt h₂.sound (hmir₁.grow h₂.grows.frames) hthis)
    fun this t₃ h₃ ⟨hfits, hobject⟩ => ?_
  obtain ⟨c, rfl⟩ := hclass.super rfl
  cases hmethod : c.findMethod? method.lexeme with
  | none =>
    simp only [hmethod]
    exact faithful_fail h₃.sound _ _
  | some f =>
    simp only [hmethod]
    have hc : c.Fits V t₃ := hparent.grow h₃.grows
    refine .bind (faithful_bindMethod h₃.sound (hc.findMethod? hmethod) hfits hobject)
      fun bound t₄ h₄ hbound => ?_
    exact .pure h₄.sound hbound.1

/-! ## Classes -/

theorem faithful_makeMethods {frame : FrameId} {i : Nat} (rs : List (Routine Distance))
    {table : Bindings Closure} (ht : t.Sound V) (hmir : t.machine.frames.Mirrors frame scopes)
    (hfit : RoutinesFit V path i ([("this", true)] :: scopes) rs)
    (htable : ∀ name f, table.get? name = some f → f.FitsMethod V t) :
    Faithful V t (makeMethods path frame i rs table) (Run.makeMethods frame rs table)
      fun table t' => ∀ name f, table.get? name = some f → f.FitsMethod V t' := by
  induction rs generalizing t i table with
  | nil => exact .pure ht htable
  | cons r rs ih =>
    refine .bind (faithful_newFunction ht (i :: path)) fun serial t₁ h₁ hserial => ?_
    refine ih h₁.sound (hmir.grow h₁.grows.frames) hfit.2 fun name f hf => ?_
    by_cases hname : r.name.lexeme = name
    · rw [hname, Bindings.get?_put_self] at hf
      obtain rfl := Option.some.inj hf
      exact ⟨i :: path, scopes, hserial, hmir.grow h₁.grows.frames, hfit.1⟩
    · rw [Bindings.get?_put_of_ne hname] at hf
      exact (htable name f hf).grow h₁.grows

theorem faithful_superclassOf (heval : Evaluates V evaluate evaluate')
    {parent : Option (Token × Distance)} (ht : t.Sound V)
    (hmir : t.machine.frames.Mirrors t.machine.current scopes)
    (h : ∀ p ∈ parent, ExprFits V path scopes (.name p.1 p.2)) :
    Faithful V t (superclassOf parent (evaluate path)) (Run.superclassOf parent evaluate')
      fun found t' => found.isSome = parent.isSome ∧ ∀ c ∈ found, c.Fits V t' := by
  cases parent with
  | none => exact .pure ht ⟨rfl, fun _ hc => nomatch hc⟩
  | some p =>
    refine .bind (heval t path scopes _ ht hmir (h p rfl)) fun v t₁ h₁ hv => ?_
    cases v with
    | classValue c => exact .pure h₁.sound ⟨rfl, fun _ hc => Option.some.inj hc ▸ hv⟩
    | _ => exact faithful_fail h₁.sound _ _

/-- Methods are closed in the current frame, or in a frame inside it that binds the superclass. -/
theorem faithful_methodFrame {parent : Option Class} (ht : t.Sound V)
    (hmir : t.machine.frames.Mirrors t.machine.current scopes) (hparent : ∀ c ∈ parent, c.Fits V t) :
    Faithful V t (lift (Run.methodFrame parent)) (Run.methodFrame parent) fun frame t' =>
      t'.machine.frames.Mirrors frame (if parent.isSome then [("super", true)] :: scopes else scopes) := by
  refine .lifted (faithful_currentFrame ht) fun here t₁ h₁ hhere => ?_
  subst hhere
  have hmir₁ := hmir.grow h₁.grows.frames
  cases parent with
  | none => exact faithful_value h₁.sound hmir₁
  | some c =>
    have hc : (Value.classValue c).Fits V t₁ := (hparent c rfl).grow h₁.grows
    refine .lifted (faithful_newFrame h₁.sound hmir₁) fun frame t₂ h₂ hframe => ?_
    refine .lifted (faithful_defineIn h₂.sound hframe
      ⟨fun he => absurd he (by decide), fun _ => ⟨c, rfl⟩⟩
      fun t' hg _ => hc.grow (h₂.grows.trans hg)) fun _ t₃ h₃ hframe₃ => ?_
    exact faithful_value h₃.sound hframe₃

/-- A class is declared under a name that is bound before its methods are made. -/
theorem faithful_defineClass (heval : Evaluates V evaluate evaluate') {name : Token}
    {parent : Option (Token × Distance)} {methods : List (Routine Distance)} (ht : t.Sound V)
    (hmir : t.machine.frames.Mirrors t.machine.current scopes) (hname : Bindable name.lexeme)
    (hparent : ∀ p ∈ parent, ExprFits V (0 :: path) scopes (.name p.1 p.2))
    (hmethods : RoutinesFit V path 1 (classScopes parent.isSome (enter name.lexeme true scopes)) methods) :
    Faithful V t (defineClass evaluate path name parent methods) (Run.defineClass evaluate' name parent methods)
      fun _ t' => t'.machine.frames.Mirrors t.machine.current (enter name.lexeme true scopes) := by
  refine .bind (faithful_superclassOf heval ht hmir hparent) fun found t₁ h₁ ⟨hsome, hfound⟩ => ?_
  refine .bind (faithful_define h₁.sound (h₁.mirrors hmir) hname fun _ _ _ => trivial)
    fun _ t₂ h₂ hmir₂ => ?_
  rw [← h₂.current] at hmir₂
  refine .bind (faithful_methodFrame h₂.sound hmir₂ fun c hc => (hfound c hc).grow h₂.grows)
    fun frame t₃ h₃ hframe => ?_
  rw [hsome] at hframe
  refine .bind (faithful_makeMethods methods h₃.sound hframe hmethods fun _ _ hf => nomatch hf)
    fun table t₄ h₄ htable => ?_
  refine .bind (faithful_newSerial h₄.sound) fun serial t₅ h₅ _ => ?_
  have hmir₅ := h₅.mirrors (h₄.mirrors (h₃.mirrors hmir₂))
  have hcurrent : t₅.machine.current = t.machine.current :=
    h₅.current.trans (h₄.current.trans (h₃.current.trans (h₂.current.trans h₁.current)))
  refine (faithful_define h₅.sound hmir₅ hname fun t' hg _ => ?_).mono fun _ t₆ h₆ _ => ?_
  · -- the layers of the class are its own table and those of the superclass
    intro layer hlayer method f hf
    rcases List.mem_cons.1 hlayer with rfl | hlayer
    · exact (htable method f hf).grow (h₅.grows.trans hg)
    · cases found with
      | none => cases hlayer
      | some c =>
        have hc := (hfound c rfl).grow (h₂.grows.trans (h₃.grows.trans (h₄.grows.trans h₅.grows)))
        exact (hc layer hlayer method f hf).grow hg
  · rw [← hcurrent]
    exact hmir₅.grow h₆.grows.frames

/-! ## One step -/

theorem faithful_evaluateCall (heval : Evaluates V evaluate evaluate') (hexec : Executes V execute execute')
    {callee : Expr Distance} (paren : Token) {arguments : List (Expr Distance)} (ht : t.Sound V)
    (hmir : t.machine.frames.Mirrors t.machine.current scopes) (hcallee : ExprFits V (0 :: path) scopes callee)
    (hargs : ExprsFit V path 1 scopes arguments) :
    Faithful V t (evaluateCall evaluate execute path callee paren arguments)
      (Run.evaluateCall evaluate' execute' callee paren arguments) fun v t' => v.Fits V t' := by
  refine .bind (heval t _ scopes callee ht hmir hcallee) fun f t₁ h₁ hf => ?_
  cases harity : f.arity? with
  | none => exact faithful_fail h₁.sound _ _
  | some arity =>
    simp only
    split
    · next hlength =>
      refine .bind (faithful_evaluateAll heval arguments h₁.sound (h₁.mirrors hmir) hargs)
        fun values t₂ h₂ ⟨hvalues, hfits⟩ => ?_
      exact faithful_call hexec paren h₂.sound (hf.grow h₂.grows) harity (hvalues.trans hlength) hfits
    · exact faithful_fail h₁.sound _ _

/-- **One step of evaluation is faithful** if evaluating and executing its parts is. -/
theorem faithful_evaluateStep (heval : Evaluates V evaluate evaluate')
    (hexec : Executes V execute execute') :
    Evaluates V (evaluateStep evaluate execute) (Run.evaluateStep evaluate' execute') := by
  intro t path scopes e ht hmir h
  cases e with
  | literal value => exact .pure ht (Value.fits_ofLiteral V t value)
  | group inner => exact heval t _ scopes inner ht hmir h.2
  | unary operator operand =>
    refine .bind (heval t _ scopes operand ht hmir h.2) fun v t₁ h₁ hv => ?_
    exact faithful_unary h₁.sound operator hv
  | binary left operator right =>
    obtain ⟨-, hfl, hfr⟩ := h
    refine .bind (heval t _ scopes left ht hmir hfl) fun l t₁ h₁ hl => ?_
    refine .bind (heval t₁ _ scopes right h₁.sound (h₁.mirrors hmir) hfr) fun r t₂ h₂ hr => ?_
    exact faithful_binary h₂.sound operator (hl.grow h₂.grows) hr
  | logical left operator right =>
    obtain ⟨-, hfl, hfr⟩ := h
    refine .bind (heval t _ scopes left ht hmir hfl) fun l t₁ h₁ hl => ?_
    split
    · exact .pure h₁.sound hl
    · exact heval t₁ _ scopes right h₁.sound (h₁.mirrors hmir) hfr
  | name token site => exact faithful_lookUp ht hmir h.2
  | setField object field value =>
    obtain ⟨-, hfo, hfv⟩ := h
    refine .bind (heval t _ scopes object ht hmir hfo) fun target t₁ h₁ _ => ?_
    cases target with
    | object id c =>
      refine .bind (heval t₁ _ scopes value h₁.sound (h₁.mirrors hmir) hfv) fun v t₂ h₂ hv => ?_
      refine .bind (faithful_writeField h₂.sound id field.lexeme hv) fun _ t₃ h₃ _ => ?_
      exact .pure h₃.sound (hv.grow h₃.grows)
    | _ => exact faithful_fail h₁.sound _ _
  | getField object field =>
    refine .bind (heval t _ scopes object ht hmir h.2) fun target t₁ h₁ htarget => ?_
    exact faithful_getField field h₁.sound htarget
  | call callee paren arguments => exact faithful_evaluateCall heval hexec paren ht hmir h.2.1 h.2.2
  | thisRef keyword site =>
    obtain ⟨-, hthis, d, rfl, hready⟩ := h
    have hsite : ∀ d' ∈ (some d : Distance), Ready scopes d' keyword.lexeme := by
      intro d' hd
      rw [hthis, ← Option.some.inj hd]
      exact hready
    exact faithful_lookUp ht hmir hsite
  | superRef keyword method site =>
    obtain ⟨-, d, rfl, hsuper, hthis⟩ := h
    exact faithful_getSuper method ht hmir hsuper hthis
  | unknown => exact absurd h.2 id

theorem faithful_evaluate? (heval : Evaluates V evaluate evaluate') {e : Option (Expr Distance)}
    (ht : t.Sound V) (hmir : t.machine.frames.Mirrors t.machine.current scopes)
    (h : ∀ x ∈ e, ExprFits V path scopes x) :
    Faithful V t (evaluate? (evaluate path) e) (Run.evaluate? evaluate' e) fun v t' => v.Fits V t' := by
  cases e with
  | none => exact .pure ht trivial
  | some e => exact heval t path scopes e ht hmir (h e rfl)

end Parts

section Statements

variable {V : List Visit} {t : Toured} {path : Path} {scopes : List Scope}
  {evaluate : Path → Expr Distance → Tour Value} {evaluate' : Expr Distance → Run Value}
  {execute : Path → Stmt Distance → Tour Flow} {execute' : Stmt Distance → Run Flow}

/-- A statement that binds no name leaves the scopes as they are. -/
theorem Faithful.passed {s : Stmt Distance} {p : Tour Flow} {q : Run Flow}
    (h : Faithful V t p q fun flow t' => flow.Fits V t')
    (hmir : t.machine.frames.Mirrors t.machine.current scopes) (hs : boundName? s = none) :
    Faithful V t p q (Passed V t scopes s) := by
  refine h.mono fun flow t' hl hflow => ⟨hflow, fun _ => ?_⟩
  rw [Binding.declared_of_boundName? hs]
  exact hmir.grow hl.grows.frames

/-- A branch that is taken binds no name either. -/
theorem Executes.unbound (hexec : Executes V execute execute') {s : Stmt Distance} (ht : t.Sound V)
    (hmir : t.machine.frames.Mirrors t.machine.current scopes) (h : StmtFits V path scopes s) :
    Faithful V t (execute path s) (execute' s) fun flow t' => flow.Fits V t' :=
  (hexec t path scopes s ht hmir h).mono fun _ _ _ hflow => hflow.1

theorem faithful_assign {name : Token} {value : Value} {site : Distance}
    (source : Option (Expr Distance)) (ht : t.Sound V)
    (hmir : t.machine.frames.Mirrors t.machine.current scopes)
    (hname : Bindable name.lexeme) (hsite : ∀ d ∈ site, d ≤ scopes.length) (hvalue : value.Fits V t) :
    Faithful V t (lift (Run.assign name.lexeme value site)) (Run.assign name.lexeme value site)
      fun _ t' => t'.machine.frames.Mirrors t.machine.current (declared (.assign name source site) scopes) := by
  cases site with
  | none => exact faithful_define ht (hmir.pending name.lexeme) hname fun _ hg _ => hvalue.grow hg
  | some d =>
    refine (faithful_defineAt ht hmir (hsite d rfl) hname hvalue).mono fun _ t' hl _ => ?_
    exact hmir.grow hl.grows.frames

/-- **One step of execution is faithful** if evaluating and executing its parts is. -/
theorem faithful_executeStep (limits : Limits) (heval : Evaluates V evaluate evaluate')
    (hexec : Executes V execute execute') :
    Executes V (executeStep limits evaluate execute) (Run.executeStep limits evaluate' execute') := by
  intro t path scopes s ht hmir h
  cases s with
  | block body => exact (faithful_executeBlock hexec ht hmir h.2).passed hmir rfl
  | define r =>
    obtain ⟨-, hname, hfits⟩ := h
    refine .bind (faithful_newFunction ht path) fun serial t₁ h₁ hserial => ?_
    refine .bind (faithful_currentFrame h₁.sound) fun here t₂ h₂ hhere => ?_
    subst hhere
    rw [← h₂.current]
    refine .bind (faithful_define h₂.sound (h₂.mirrors (h₁.mirrors hmir)) hname fun t' hg hmir' => ?_)
      fun _ t₃ h₃ hmir₃ => ?_
    · exact ⟨path, _, (h₂.grows.trans hg).origins _ _ hserial, hmir', hfits, fun hi => nomatch hi⟩
    · rw [h₂.current, h₁.current] at hmir₃
      exact .pure h₃.sound ⟨trivial, fun _ => hmir₃⟩
  | classDef name parent methods =>
    obtain ⟨-, hname, hparent, hmethods⟩ := h
    refine .bind (faithful_defineClass heval ht hmir hname hparent hmethods) fun _ t₁ h₁ hmir₁ => ?_
    exact .pure h₁.sound ⟨trivial, fun _ => hmir₁⟩
  | evaluate e =>
    refine Faithful.passed ?_ hmir rfl
    refine .bind (heval t _ scopes e ht hmir h.2) fun _ t₁ h₁ _ => ?_
    exact .pure h₁.sound trivial
  | branch condition whenTrue whenFalse =>
    refine Faithful.passed ?_ hmir rfl
    cases whenFalse with
    | none =>
      obtain ⟨-, hc, -, hwt⟩ := h
      refine .bind (heval t _ scopes condition ht hmir hc) fun v t₁ h₁ _ => ?_
      split
      · exact hexec.unbound h₁.sound (h₁.mirrors hmir) hwt
      · exact .pure h₁.sound trivial
    | some other =>
      obtain ⟨-, hc, ⟨-, hwt⟩, -, hwf⟩ := h
      refine .bind (heval t _ scopes condition ht hmir hc) fun v t₁ h₁ _ => ?_
      split
      · exact hexec.unbound h₁.sound (h₁.mirrors hmir) hwt
      · exact hexec.unbound h₁.sound (h₁.mirrors hmir) hwf
  | print e =>
    refine Faithful.passed ?_ hmir rfl
    refine .bind (heval t _ scopes e ht hmir h.2) fun v t₁ h₁ _ => ?_
    refine .bind (faithful_printLine h₁.sound v.display) fun _ t₂ h₂ _ => ?_
    exact .pure h₂.sound trivial
  | giveBack keyword value =>
    refine Faithful.passed ?_ hmir rfl
    refine .bind (faithful_evaluate? heval ht hmir h.2) fun v t₁ h₁ hv => ?_
    exact .pure h₁.sound hv
  | assign name value site =>
    have hparts : Bindable name.lexeme ∧ (∀ d ∈ site, d ≤ scopes.length) ∧
        Faithful V t (evaluate? (evaluate (0 :: path)) value) (Run.evaluate? evaluate' value)
          fun v t' => v.Fits V t' := by
      cases site with
      | none =>
        obtain ⟨-, hname, hv⟩ := h
        exact ⟨hname, fun _ hd => (nomatch hd), faithful_evaluate? heval ht (hmir.pending name.lexeme) hv⟩
      | some d =>
        obtain ⟨-, hname, hd, hv⟩ := h
        exact ⟨hname, fun _ he => Option.some.inj he ▸ hd, faithful_evaluate? heval ht hmir hv⟩
    obtain ⟨hname, hsite, hvalue⟩ := hparts
    refine .bind hvalue fun v t₁ h₁ hv => ?_
    refine .bind (faithful_assign value h₁.sound (h₁.mirrors hmir) hname hsite hv) fun _ t₂ h₂ hmir₂ => ?_
    rw [h₁.current] at hmir₂
    exact .pure h₂.sound ⟨trivial, fun _ => hmir₂⟩
  | loop condition body =>
    obtain ⟨-, hc, -, hb⟩ := h
    refine Faithful.passed ?_ hmir rfl
    refine faithful_repeatWhile (fun t ht hmir => ?_) (fun t ht hmir => ?_) limits.repetitions ht hmir
    · refine .bind (heval t _ scopes condition ht hmir hc) fun _ t₁ h₁ _ => ?_
      exact .pure h₁.sound trivial
    · exact hexec.unbound ht hmir hb
  | unknown => exact absurd h.2 id

end Statements

end Offside.Tour
