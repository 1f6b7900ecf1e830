import Offside.Proofs.Machine.Padding
import Offside.Proofs.Machine.Returns

/-!
# Evaluation past inserted blocks

A step of the evaluator over a tree and one over the tree with inserted blocks go alike if the steps for their
parts do, and so at every depth, unless one of them exceeds its nesting.  An inserted block takes one more
step on its side alone: a frame is made, the statement inside is executed, and the frame is left.

* `Run.EvaluatesAlike`, `Run.ExecutesAlike` — evaluation and execution of such trees go alike;
* `Run.tracks_callClosure`, `Run.tracks_defineClass` and others — the helpers;
* `Run.tracks_insertedBlock` — the block that is executed on one side alone;
* `Run.tracks_evaluateStep`, `Run.tracks_executeStep` — one step over steps for the parts;
* `Run.tracks_depth`, `Run.tracks_program` — every depth, and whole programs.
-/

set_option autoImplicit false

namespace Offside

open Binding (Distance Shared shift shared_cons classPattern)

/-- The current frames of machines that are alike correspond. -/
structure Machine.Faces (W : World) (p : List Bool) (m m' : Machine) : Prop where
  alike : m.Alike W m'
  here : ⟨p, m.current, m'.current⟩ ∈ W

theorem Machine.Faces.on {W W₁ : World} {p : List Bool} {m m' m₁ m₁' : Machine} (h : Machine.Faces W p m m')
    (h₁ : Machine.Abreast W m m' W₁ m₁ m₁') : Machine.Faces W₁ p m₁ m₁' := by
  refine ⟨h₁.alike, ?_⟩
  rw [h₁.left, h₁.right]
  exact h₁.more h.here

/-- What statements that go alike do to those behind them. -/
inductive Flow.Alike (W : World) : Flow → Flow → Prop
  | next : Flow.Alike W .next .next
  | back {v v' : Value} (h : v.Alike W v') : Flow.Alike W (.back v) (.back v')

namespace Run

/-- Evaluating an expression and the spread one goes alike, wherever the current frames correspond. -/
def EvaluatesAlike (evaluate evaluate' : Expr Distance → Run Value) : Prop :=
  ∀ (W : World) (p : List Bool) (m m' : Machine) (e e' : Expr Distance), m.Faces W p m' → Expr.Spread p e e' →
    Tracks W m m' (evaluate e) (evaluate' e') Value.Alike

/-- Executing a statement and the spread one goes alike, wherever the current frames correspond. -/
def ExecutesAlike (execute execute' : Stmt Distance → Run Flow) : Prop :=
  ∀ (W : World) (p : List Bool) (m m' : Machine) (s s' : Stmt Distance), m.Faces W p m' → Stmt.Spread p s s' →
    Tracks W m m' (execute s) (execute' s') Flow.Alike

section Parts

variable {W : World} {p : List Bool} {m m' : Machine} {evaluate evaluate' : Expr Distance → Run Value}
  {execute execute' : Stmt Distance → Run Flow}

/-! ## Lists of expressions and statements -/

theorem tracks_evaluateAll (heval : EvaluatesAlike evaluate evaluate') {es es' : List (Expr Distance)}
    (hf : m.Faces W p m') (h : Expr.SpreadAll p es es') :
    Tracks W m m' (evaluateAll evaluate es) (evaluateAll evaluate' es') fun W' => List.Forall₂ (Value.Alike W') := by
  induction es generalizing W m m' es' with
  | nil =>
    cases h
    exact .pure hf.alike .nil
  | cons e es ih =>
    cases h with
    | cons he hes =>
      refine .bind (heval W p m m' _ _ hf he) fun v v' W₁ m₁ m₁' h₁ hv => ?_
      refine .bind (ih (hf.on h₁) hes) fun vs vs' W₂ m₂ m₂' h₂ hvs => ?_
      exact .pure h₂.alike (.cons (hv.mono h₂.more) hvs)

theorem tracks_evaluate? (heval : EvaluatesAlike evaluate evaluate') {e e' : Option (Expr Distance)}
    (hf : m.Faces W p m') (h : Option.Rel (Expr.Spread p) e e') :
    Tracks W m m' (evaluate? evaluate e) (evaluate? evaluate' e') Value.Alike := by
  cases h with
  | none => exact .pure hf.alike .null
  | some he => exact heval W p m m' _ _ hf he

theorem tracks_executeAll (hexec : ExecutesAlike execute execute') {ss ss' : List (Stmt Distance)}
    (hf : m.Faces W p m') (h : Stmt.SpreadAll p ss ss') :
    Tracks W m m' (executeAll execute ss) (executeAll execute' ss') Flow.Alike := by
  induction ss generalizing W m m' ss' with
  | nil =>
    cases h
    exact .pure hf.alike .next
  | cons s ss ih =>
    cases h with
    | cons hs hss =>
      refine .bind (hexec W p m m' _ _ hf hs) fun flow flow' W₁ m₁ m₁' h₁ hflow => ?_
      cases hflow with
      | next => exact ih (hf.on h₁) hss
      | back hv => exact .pure h₁.alike (.back hv)

theorem tracks_executeBlock (hexec : ExecutesAlike execute execute') {body body' : List (Stmt Distance)}
    (hf : m.Faces W p m') (h : Stmt.SpreadAll (true :: p) body body') :
    Tracks W m m' (executeBlock execute body) (executeBlock execute' body') Flow.Alike := by
  refine .bind (tracks_currentFrame hf.alike) fun here here' W₁ m₁ m₁' h₁ hhere => ?_
  obtain ⟨rfl, rfl⟩ := hhere
  refine .bind (tracks_newFrame h₁.alike (h₁.more hf.here)) fun frame frame' W₂ m₂ m₂' h₂ hframe => ?_
  exact .inFrame (tracks_executeAll hexec ⟨h₂.alike.move _ _, hframe⟩ h)

theorem executeAll_singleton (execute : Stmt Distance → Run Flow) (s : Stmt Distance) (m : Machine) :
    executeAll execute [s] m = execute s m := by
  cases h : execute s m with
  | ok flow m₁ =>
    rw [executeAll, Step.bind_of_ok h]
    cases flow <;> rfl
  | error e m₁ => rw [executeAll, Step.bind_of_error h]

/-- **A block is inserted on the second side.**  Its frame is made, and is left behind the statement inside. -/
theorem tracks_insertedBlock {step : Run Flow} {s' : Stmt Distance} (hf : m.Faces W p m')
    (h : ∀ W₁ m₁', Machine.Faces W₁ (false :: p) m m₁' → Tracks W₁ m m₁' step (execute' s') Flow.Alike) :
    Tracks W m m' step (executeBlock execute' [s']) Flow.Alike := by
  intro hs ht
  rw [executeBlock_apply, executeAll_singleton] at ht ⊢
  have hinside : Machine.Faces (⟨false :: p, m.current, m'.frames.size⟩ :: W) (false :: p) m
      (m'.inside m'.current) :=
    ⟨(hf.alike.insert hf.here).move m.current m'.frames.size, List.mem_cons_self⟩
  have hmore : W ⊆ ⟨false :: p, m.current, m'.frames.size⟩ :: W := List.subset_cons_self _ _
  have ht' : ¬ Overflows (execute' s' (m'.inside m'.current)) := by
    rintro ⟨m₁', he⟩
    exact ht ⟨m₁'.moved m'.current, by rw [he]; rfl⟩
  have hpairs := h _ _ hinside hs ht'
  cases hsm : step m <;> cases htm : execute' s' (m'.inside m'.current) <;> rw [hsm, htm] at hpairs
  · obtain ⟨W', hW, hflow⟩ := hpairs
    exact ⟨W', ⟨List.Subset.trans hmore hW.more, hW.alike.move _ _, hW.left, rfl⟩, hflow⟩
  · exact hpairs
  · exact hpairs
  · obtain ⟨he, W', hW⟩ := hpairs
    exact ⟨he, W', List.Subset.trans hmore hW.more, hW.alike.move _ _, hW.left, rfl⟩

theorem tracks_repeatWhile {test test' : Run Bool} {body body' : Run Flow}
    (htest : ∀ W m m', Machine.Faces W p m m' → Tracks W m m' test test' fun _ b b' => b' = b)
    (hbody : ∀ W m m', Machine.Faces W p m m' → Tracks W m m' body body' Flow.Alike)
    (limit : Nat) (hf : m.Faces W p m') :
    Tracks W m m' (repeatWhile test body limit) (repeatWhile test' body' limit) Flow.Alike := by
  induction limit generalizing W m m' with
  | zero => exact tracks_throw hf.alike _
  | succ limit ih =>
    refine .bind (htest W m m' hf) fun b b' W₁ m₁ m₁' h₁ hsame => ?_
    subst hsame
    cases b' with
    | false => exact .pure h₁.alike .next
    | true =>
      refine .bind (hbody W₁ m₁ m₁' (hf.on h₁)) fun flow flow' W₂ m₂ m₂' h₂ hflow => ?_
      cases hflow with
      | next => exact ih ((hf.on h₁).on h₂)
      | back hv => exact .pure h₂.alike (.back hv)

/-! ## Names -/

theorem tracks_lookUp (hf : m.Faces W p m') (t : Token) (site : Distance) :
    Tracks W m m' (lookUp t site) (lookUp t (site.map (shift p))) Value.Alike := by
  cases site with
  | none => exact tracks_readGlobal hf.alike t
  | some d =>
    refine .bind (tracks_currentFrame hf.alike) fun here here' W₁ m₁ m₁' h₁ hhere => ?_
    obtain ⟨rfl, rfl⟩ := hhere
    exact tracks_readAt h₁.alike (h₁.more hf.here) d t.lexeme

theorem tracks_assign (hf : m.Faces W p m') (hp : Shared p) (name : String) (site : Distance) {v v' : Value}
    (hv : v.Alike W v') :
    Tracks W m m' (assign name v site) (assign name v' (site.map (shift p))) fun _ _ _ => True := by
  cases site with
  | none => exact tracks_define hf.alike hp hf.here name hv
  | some d => exact tracks_defineAt hf.alike hf.here d name hv

/-! ## Calls -/

theorem tracks_bindParams {id id' : FrameId} (params : List Token) {arguments arguments' : List Value}
    (hm : m.Alike W m') (hp : Shared p) (hx : ⟨p, id, id'⟩ ∈ W)
    (hargs : List.Forall₂ (Value.Alike W) arguments arguments') :
    Tracks W m m' (bindParams id params arguments) (bindParams id' params arguments') fun _ _ _ => True := by
  induction params generalizing W m m' arguments arguments' with
  | nil => exact .pure hm trivial
  | cons param params ih =>
    cases hargs with
    | nil => exact .pure hm trivial
    | cons hv hvs =>
      refine .bind (tracks_defineIn hm hp hx param.lexeme hv) fun _ _ W₁ m₁ m₁' h₁ _ => ?_
      exact ih h₁.alike (h₁.more hx) (hvs.imp fun _ _ hv' => hv'.mono h₁.more)

theorem tracks_bindMethod {f f' : Closure} {this this' : Value} (hm : m.Alike W m') (hf : f.Alike W [true] f')
    (hthis : this.Alike W this') :
    Tracks W m m' (bindMethod f this) (bindMethod f' this') fun W' => Closure.Alike W' [] := by
  obtain ⟨q, hq, hx, hspread⟩ := hf.code
  refine .bind (tracks_newFrame hm hx) fun frame frame' W₁ m₁ m₁' h₁ hframe => ?_
  refine .bind (tracks_defineIn h₁.alike (shared_cons q) hframe "this" (hthis.mono h₁.more))
    fun _ _ W₂ m₂ m₂' h₂ _ => ?_
  refine .bind (tracks_newSerial h₂.alike) fun serial serial' W₃ m₃ m₃' h₃ hserial => ?_
  exact .pure h₃.alike
    ⟨hserial, hf.isInitializer, true :: q, shared_cons q, h₃.more (h₂.more hframe), hspread⟩

theorem tracks_callClosure (hexec : ExecutesAlike execute execute') {f f' : Closure}
    {arguments arguments' : List Value} (hm : m.Alike W m') (hf : f.Alike W [] f')
    (hargs : List.Forall₂ (Value.Alike W) arguments arguments') :
    Tracks W m m' (callClosure execute f arguments) (callClosure execute' f' arguments') Value.Alike := by
  obtain ⟨q, hq, hx, hspread⟩ := hf.code
  unfold callClosure
  rw [hf.params, hf.isInitializer]
  refine .bind (tracks_newFrame hm hx) fun frame frame' W₁ m₁ m₁' h₁ hframe => ?_
  refine .bind (tracks_bindParams f.routine.params h₁.alike (shared_cons q) hframe
    (hargs.imp fun _ _ hv => hv.mono h₁.more)) fun _ _ W₂ m₂ m₂' h₂ _ => ?_
  refine .bind (Tracks.inFrame (tracks_executeAll hexec ⟨h₂.alike.move _ _, h₂.more hframe⟩ hspread.body))
    fun flow flow' W₃ m₃ m₃' h₃ hflow => ?_
  split
  · have hread := tracks_readAt h₃.alike (h₃.more (h₂.more (h₁.more hx))) 0 "this"
    rwa [Binding.shift_zero hq] at hread
  · cases hflow with
    | next => exact .pure h₃.alike .null
    | back hv => exact .pure h₃.alike hv

theorem tracks_callClass (hexec : ExecutesAlike execute execute') {c c' : Class}
    {arguments arguments' : List Value} (hm : m.Alike W m') (hc : c.Alike W c')
    (hargs : List.Forall₂ (Value.Alike W) arguments arguments') :
    Tracks W m m' (callClass execute c arguments) (callClass execute' c' arguments') Value.Alike := by
  refine .bind (tracks_newInstance hm) fun id id' W₁ m₁ m₁' h₁ hid => ?_
  subst hid
  rcases rel_cases (hc.findMethod? Routine.initializerName) with ⟨hf, hf'⟩ | ⟨f, f', hf, hf', hmethod⟩
  · simp only [Class.initializer?, hf, hf']
    exact .pure h₁.alike (.object _ (hc.mono h₁.more))
  · simp only [Class.initializer?, hf, hf']
    refine .bind (tracks_bindMethod h₁.alike (hmethod.mono h₁.more) (.object _ (hc.mono h₁.more)))
      fun g g' W₂ m₂ m₂' h₂ hg => ?_
    have hmore := (h₁.trans h₂).more
    refine .bind (tracks_callClosure hexec h₂.alike hg (hargs.imp fun _ _ hv => hv.mono hmore))
      fun _ _ W₃ m₃ m₃' h₃ _ => ?_
    exact .pure h₃.alike (.object _ (hc.mono ((h₁.trans h₂).trans h₃).more))

theorem tracks_call (hexec : ExecutesAlike execute execute') (paren : Token) {callee callee' : Value}
    {arguments arguments' : List Value} (hm : m.Alike W m') (hcallee : callee.Alike W callee')
    (hargs : List.Forall₂ (Value.Alike W) arguments arguments') :
    Tracks W m m' (call execute paren callee arguments) (call execute' paren callee' arguments') Value.Alike := by
  cases hcallee with
  | function h => exact tracks_callClosure hexec hm h hargs
  | native serial f => exact tracks_callNative hm paren f hargs
  | classValue h => exact tracks_callClass hexec hm h hargs
  | _ => exact tracks_fail hm _ _

/-! ## Fields and methods -/

theorem tracks_getField (field : Token) {target target' : Value} (hm : m.Alike W m') (h : target.Alike W target') :
    Tracks W m m' (getField field target) (getField field target') Value.Alike := by
  cases h with
  | object id hc =>
    refine .bind (tracks_readField? hm id field.lexeme) fun found found' W₁ m₁ m₁' h₁ hfound => ?_
    cases hfound with
    | some hv => exact .pure h₁.alike hv
    | none =>
      rcases rel_cases (hc.findMethod? field.lexeme) with ⟨hf, hf'⟩ | ⟨f, f', hf, hf', hmethod⟩
      · simp only [hf, hf']
        exact tracks_fail h₁.alike _ _
      · simp only [hf, hf']
        refine .bind (tracks_bindMethod h₁.alike (hmethod.mono h₁.more) (.object id (hc.mono h₁.more)))
          fun g g' W₂ m₂ m₂' h₂ hg => ?_
        exact .pure h₂.alike (.function hg)
  | _ => exact tracks_fail hm _ _

theorem tracks_getSuper (method : Token) (site : Distance) (hf : m.Faces W p m')
    (hsite : ∀ d ∈ site, shift p d - 1 = shift p (d - 1)) :
    Tracks W m m' (getSuper method site) (getSuper method (site.map (shift p))) Value.Alike := by
  cases site with
  | none => exact tracks_throw hf.alike _
  | some d =>
    refine .bind (tracks_currentFrame hf.alike) fun here here' W₁ m₁ m₁' h₁ hhere => ?_
    obtain ⟨rfl, rfl⟩ := hhere
    refine .bind (tracks_readAt h₁.alike (h₁.more hf.here) d "super") fun parent parent' W₂ m₂ m₂' h₂ hparent => ?_
    have hthis := tracks_readAt h₂.alike (h₂.more (h₁.more hf.here)) (d - 1) "this"
    rw [← hsite d rfl] at hthis
    refine .bind hthis fun this this' W₃ m₃ m₃' h₃ hthis => ?_
    cases hparent with
    | classValue hc =>
      rcases rel_cases (hc.findMethod? method.lexeme) with ⟨hg, hg'⟩ | ⟨g, g', hg, hg', hmethod⟩
      · simp only [hg, hg']
        exact tracks_fail h₃.alike _ _
      · simp only [hg, hg']
        refine .bind (tracks_bindMethod h₃.alike (hmethod.mono h₃.more) hthis) fun b b' W₄ m₄ m₄' h₄ hb => ?_
        exact .pure h₄.alike (.function hb)
    | _ => exact tracks_throw h₃.alike _

/-! ## Classes -/

theorem tracks_makeMethods {id id' : FrameId} {rs rs' : List (Routine Distance)} {table table' : Bindings Closure}
    (hm : m.Alike W m') (hp : Shared p) (hx : ⟨p, id, id'⟩ ∈ W) (h : Routine.SpreadAll (true :: p) rs rs')
    (htable : Bindings.Alike (Closure.Alike W [true]) table table') :
    Tracks W m m' (makeMethods id rs table) (makeMethods id' rs' table')
      fun W' => Bindings.Alike (Closure.Alike W' [true]) := by
  induction rs generalizing W m m' rs' table table' with
  | nil =>
    cases h
    exact .pure hm htable
  | cons r rs ih =>
    cases h with
    | @cons _ _ r' _ rs' hr hrs =>
      unfold makeMethods
      rw [hr.name_eq, hr.isInitializer_eq]
      refine .bind (tracks_newSerial hm) fun serial serial' W₁ m₁ m₁' h₁ hserial => ?_
      refine ih h₁.alike (h₁.more hx) hrs ?_
      have hmethod : Closure.Alike W₁ [true] ⟨serial, r, id, r.isInitializer⟩ ⟨serial', r', id', r.isInitializer⟩ :=
        ⟨hserial, rfl, p, hp, h₁.more hx, hr⟩
      exact (htable.mono fun _ _ hf => hf.mono h₁.more).put r.name.lexeme hmethod

theorem tracks_superclassOf (heval : EvaluatesAlike evaluate evaluate') (parent : Option (Token × Distance))
    (hf : m.Faces W p m') :
    Tracks W m m' (superclassOf parent evaluate)
      (superclassOf (parent.map fun t => (t.1, t.2.map (shift p))) evaluate')
      fun W' c c' => Option.Rel (Class.Alike W') c c' ∧ c.isSome = parent.isSome := by
  cases parent with
  | none => exact .pure hf.alike ⟨.none, rfl⟩
  | some t =>
    refine .bind (heval W p m m' _ _ hf (.name t.1 t.2)) fun v v' W₁ m₁ m₁' h₁ hv => ?_
    cases hv with
    | classValue hc => exact .pure h₁.alike ⟨.some hc, rfl⟩
    | _ => exact tracks_fail h₁.alike _ _

/-- The frame around the methods of a class. -/
theorem tracks_methodFrame {parent parent' : Option Class} (hf : m.Faces W p m')
    (hparent : Option.Rel (Class.Alike W) parent parent') :
    Tracks W m m' (methodFrame parent) (methodFrame parent')
      fun W' id id' => ⟨if parent.isSome then true :: p else p, id, id'⟩ ∈ W' := by
  refine .bind (tracks_currentFrame hf.alike) fun here here' W₁ m₁ m₁' h₁ hhere => ?_
  obtain ⟨rfl, rfl⟩ := hhere
  cases hparent with
  | none => exact .pure h₁.alike (h₁.more hf.here)
  | some hc =>
    refine .bind (tracks_newFrame h₁.alike (h₁.more hf.here)) fun id id' W₂ m₂ m₂' h₂ hx => ?_
    refine .bind (tracks_defineIn h₂.alike (shared_cons p) hx "super"
      (.classValue (hc.mono (h₁.trans h₂).more))) fun _ _ W₃ m₃ m₃' h₃ _ => ?_
    exact .pure h₃.alike (h₃.more hx)

theorem tracks_defineClass (heval : EvaluatesAlike evaluate evaluate') (name : Token)
    (parent : Option (Token × Distance)) {methods methods' : List (Routine Distance)} (hf : m.Faces W p m')
    (hp : Shared p) (h : Routine.SpreadAll (classPattern parent.isSome p) methods methods') :
    Tracks W m m' (defineClass evaluate name parent methods)
      (defineClass evaluate' name (parent.map fun t => (t.1, t.2.map (shift p))) methods') fun _ _ _ => True := by
  refine .bind (tracks_superclassOf heval parent hf) fun c c' W₁ m₁ m₁' h₁ hc => ?_
  obtain ⟨hc, hsome⟩ := hc
  have hf₁ := hf.on h₁
  refine .bind (tracks_define hf₁.alike hp hf₁.here name.lexeme .null) fun _ _ W₂ m₂ m₂' h₂ _ => ?_
  have hf₂ := hf₁.on h₂
  refine .bind (tracks_methodFrame hf₂ (rel_imp hc fun _ _ hl => hl.mono h₂.more))
    fun id id' W₃ m₃ m₃' h₃ hx => ?_
  have hinner : Shared (if c.isSome then true :: p else p) := by
    split
    · exact shared_cons p
    · exact hp
  rw [classPattern, ← hsome] at h
  refine .bind (tracks_makeMethods h₃.alike hinner hx h .nil) fun table table' W₄ m₄ m₄' h₄ htable => ?_
  refine .bind (tracks_newSerial h₄.alike) fun serial serial' W₅ m₅ m₅' h₅ hserial => ?_
  have hf₅ := (hf₂.on h₃).on (h₄.trans h₅)
  have hmore : W₁ ⊆ W₅ := (h₂.trans (h₃.trans (h₄.trans h₅))).more
  refine tracks_define hf₅.alike hp hf₅.here name.lexeme (.classValue (.cons ?_ ?_))
  · exact ⟨hserial, rfl, htable.mono fun _ _ hm => hm.mono h₅.more⟩
  · cases hc with
    | none => exact .nil
    | some hc => exact hc.mono hmore

/-! ## One step -/

theorem tracks_evaluateCall (heval : EvaluatesAlike evaluate evaluate') (hexec : ExecutesAlike execute execute')
    {callee callee' : Expr Distance} (paren : Token) {arguments arguments' : List (Expr Distance)}
    (hf : m.Faces W p m') (hc : Expr.Spread p callee callee') (hargs : Expr.SpreadAll p arguments arguments') :
    Tracks W m m' (evaluateCall evaluate execute callee paren arguments)
      (evaluateCall evaluate' execute' callee' paren arguments') Value.Alike := by
  refine .bind (heval W p m m' _ _ hf hc) fun f f' W₁ m₁ m₁' h₁ hv => ?_
  rw [hv.arity?, hargs.length_eq]
  cases f.arity? with
  | none => exact tracks_fail h₁.alike _ _
  | some arity =>
    simp only
    split
    · refine .bind (tracks_evaluateAll heval (hf.on h₁) hargs) fun vs vs' W₂ m₂ m₂' h₂ hvs => ?_
      exact tracks_call hexec paren h₂.alike (hv.mono h₂.more) hvs
    · exact tracks_fail h₁.alike _ _

/-- One step of evaluation. -/
theorem tracks_evaluateStep (heval : EvaluatesAlike evaluate evaluate') (hexec : ExecutesAlike execute execute') :
    EvaluatesAlike (evaluateStep evaluate execute) (evaluateStep evaluate' execute') := by
  intro W p m m' e e' hf h
  cases h with
  | literal value => exact .pure hf.alike (Value.alike_ofLiteral value)
  | group h => exact heval W p m m' _ _ hf h
  | unary operator h =>
    refine .bind (heval W p m m' _ _ hf h) fun v v' W₁ m₁ m₁' h₁ hv => ?_
    rw [unary_eq operator hv.resembles]
    exact (settles_unary operator v).tracks h₁.alike
  | binary operator hl hr =>
    refine .bind (heval W p m m' _ _ hf hl) fun l l' W₁ m₁ m₁' h₁ hvl => ?_
    refine .bind (heval W₁ p m₁ m₁' _ _ (hf.on h₁) hr) fun r r' W₂ m₂ m₂' h₂ hvr => ?_
    have hvl := hvl.mono h₂.more
    rw [binary_eq operator hvl.resembles hvr.resembles (hvl.equal hvr)]
    exact (settles_binary operator l r).tracks h₂.alike
  | logical operator hl hr =>
    refine .bind (heval W p m m' _ _ hf hl) fun l l' W₁ m₁ m₁' h₁ hvl => ?_
    rw [hvl.isTruthy]
    split
    · exact .pure h₁.alike hvl
    · exact heval W₁ p m₁ m₁' _ _ (hf.on h₁) hr
  | name token site => exact tracks_lookUp hf token site
  | setField field ho hv =>
    refine .bind (heval W p m m' _ _ hf ho) fun o o' W₁ m₁ m₁' h₁ hobject => ?_
    cases hobject with
    | object id hc =>
      refine .bind (heval W₁ p m₁ m₁' _ _ (hf.on h₁) hv) fun v v' W₂ m₂ m₂' h₂ hvalue => ?_
      refine .bind (tracks_writeField h₂.alike id field.lexeme hvalue) fun _ _ W₃ m₃ m₃' h₃ _ => ?_
      exact .pure h₃.alike (hvalue.mono h₃.more)
    | _ => exact tracks_fail h₁.alike _ _
  | getField field ho =>
    refine .bind (heval W p m m' _ _ hf ho) fun o o' W₁ m₁ m₁' h₁ hobject => ?_
    exact tracks_getField field h₁.alike hobject
  | call paren hc hargs => exact tracks_evaluateCall heval hexec paren hf hc hargs
  | thisRef keyword site => exact tracks_lookUp hf keyword site
  | superRef keyword method site h => exact tracks_getSuper method site hf h
  | unknown => exact tracks_throw hf.alike _

/-- One step of execution.  An inserted block executes on the second side what the first side is at already. -/
theorem tracks_executeStep {limits limits' : Limits} (hlimits : limits'.repetitions = limits.repetitions)
    (heval : EvaluatesAlike evaluate evaluate') (hexec : ExecutesAlike execute execute')
    (hwhole : ExecutesAlike (executeStep limits evaluate execute) execute') :
    ExecutesAlike (executeStep limits evaluate execute) (executeStep limits' evaluate' execute') := by
  intro W p m m' s s' hf h
  cases h with
  | block h => exact tracks_executeBlock hexec hf h
  | @define _ r r' hp h =>
    simp only [executeStep, h.name_eq]
    refine .bind (tracks_newSerial hf.alike) fun serial serial' W₁ m₁ m₁' h₁ hserial => ?_
    refine .bind (tracks_currentFrame h₁.alike) fun here here' W₂ m₂ m₂' h₂ hhere => ?_
    obtain ⟨rfl, rfl⟩ := hhere
    have hf₂ := (hf.on h₁).on h₂
    have hfunction : Closure.Alike W₂ [] ⟨serial, r, m₁.current, false⟩ ⟨serial', r', m₁'.current, false⟩ :=
      ⟨hserial, rfl, p, hp, h₂.more (hf.on h₁).here, h⟩
    refine .bind (tracks_define hf₂.alike hp hf₂.here r.name.lexeme (.function hfunction))
      fun _ _ W₃ m₃ m₃' h₃ _ => ?_
    exact .pure h₃.alike .next
  | classDef name parent hp h =>
    refine .bind (tracks_defineClass heval name parent hf hp h) fun _ _ W₁ m₁ m₁' h₁ _ => ?_
    exact .pure h₁.alike .next
  | evaluate h =>
    refine .bind (heval W p m m' _ _ hf h) fun _ _ W₁ m₁ m₁' h₁ _ => ?_
    exact .pure h₁.alike .next
  | branch hc ht hff =>
    refine .bind (heval W p m m' _ _ hf hc) fun v v' W₁ m₁ m₁' h₁ hv => ?_
    rw [hv.isTruthy]
    split
    · exact hexec W₁ p m₁ m₁' _ _ (hf.on h₁) ht
    · cases hff with
      | none => exact .pure h₁.alike .next
      | some h => exact hexec W₁ p m₁ m₁' _ _ (hf.on h₁) h
  | print h =>
    refine .bind (heval W p m m' _ _ hf h) fun v v' W₁ m₁ m₁' h₁ hv => ?_
    rw [hv.resembles.display]
    refine .bind (tracks_printLine h₁.alike v.display) fun _ _ W₂ m₂ m₂' h₂ _ => ?_
    exact .pure h₂.alike .next
  | giveBack keyword h =>
    refine .bind (tracks_evaluate? heval hf h) fun v v' W₁ m₁ m₁' h₁ hv => ?_
    exact .pure h₁.alike (.back hv)
  | assign name site hp h =>
    refine .bind (tracks_evaluate? heval hf h) fun v v' W₁ m₁ m₁' h₁ hv => ?_
    refine .bind (tracks_assign (hf.on h₁) hp name.lexeme site hv) fun _ _ W₂ m₂ m₂' h₂ _ => ?_
    exact .pure h₂.alike .next
  | loop hc hb =>
    simp only [executeStep, hlimits]
    refine tracks_repeatWhile (fun W₁ m₁ m₁' hf₁ => ?_) (fun W₁ m₁ m₁' hf₁ => hexec W₁ p m₁ m₁' _ _ hf₁ hb)
      limits.repetitions hf
    refine .bind (heval W₁ p m₁ m₁' _ _ hf₁ hc) fun v v' W₂ m₂ m₂' h₂ hv => ?_
    exact .pure h₂.alike hv.isTruthy
  | unknown => exact tracks_throw hf.alike _
  | inserted h => exact tracks_insertedBlock hf fun W₁ m₁' hf₁ => hwhole W₁ (false :: p) m m₁' _ _ hf₁ h

end Parts

/-! ## Every depth -/

/-- **Evaluation past inserted blocks.**  The bounds on nesting differ; an inserted block takes one more step. -/
theorem tracks_depth {limits limits' : Limits} (hlimits : limits'.repetitions = limits.repetitions)
    (depth depth' : Nat) :
    EvaluatesAlike (evaluate limits depth) (evaluate limits' depth') ∧
      ExecutesAlike (execute limits depth) (execute limits' depth') := by
  -- only the second side takes a step in every case
  induction depth' generalizing depth with
  | zero => exact ⟨fun _ _ _ _ _ _ _ _ _ ht => absurd ⟨_, rfl⟩ ht, fun _ _ _ _ _ _ _ _ _ ht => absurd ⟨_, rfl⟩ ht⟩
  | succ depth' ih =>
    cases depth with
    | zero =>
      exact ⟨fun _ _ _ _ _ _ _ _ hs _ => absurd ⟨_, rfl⟩ hs, fun _ _ _ _ _ _ _ _ hs _ => absurd ⟨_, rfl⟩ hs⟩
    | succ depth =>
      obtain ⟨heval, hexec⟩ := ih depth
      have hwhole := (ih (depth + 1)).2
      exact ⟨tracks_evaluateStep heval hexec, tracks_executeStep hlimits heval hexec hwhole⟩

theorem tracks_program {limits limits' : Limits} (hlimits : limits'.repetitions = limits.repetitions) {W : World}
    {p : List Bool} {m m' : Machine} {ss ss' : List (Stmt Distance)} (hf : m.Faces W p m')
    (h : Stmt.SpreadAll p ss ss') :
    Tracks W m m' (program limits ss) (program limits' ss') fun _ _ _ => True := by
  induction ss generalizing W m m' ss' with
  | nil =>
    cases h
    exact .pure hf.alike trivial
  | cons s ss ih =>
    cases h with
    | cons hs hss =>
      have hexec := (tracks_depth hlimits limits.nesting limits'.nesting).2
      refine .bind (hexec W p m m' _ _ hf hs) fun _ _ W₁ m₁ m₁' h₁ _ => ?_
      exact ih (hf.on h₁) hss

end Run
end Offside
