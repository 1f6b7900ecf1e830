import Offside.Proofs.Binding.Walk

/-!
# Where `super` leads

In a program whose names are bound without a report, the distance of a `super` leads to the scope of the nearest
class declaration around it, however many blocks and functions stand in between: the scope one step nearer is
that of the instance, and the next one that of a call of a method of this class.

The scopes around a place are described by marks, one for each scope, innermost first.  A mark says what the
scope is for, with the syntax that it belongs to.

* `Binding.Mark` — what a scope is for;
* `Binding.routineSupers` — the `super` expressions of a routine, those of nested classes aside;
* `Binding.SuperAt`, `Binding.StmtLies` — every `super` of a tree leads to the nearest class;
* `Binding.stmt_lies`, `Binding.program_lies` — what is bound without a report is of that kind.
-/

set_option autoImplicit false

namespace Offside.Binding

open Step

/-! ## The `super` expressions of a tree -/

mutual

/-- The `super` expressions in an expression. -/
def exprSupers : Expr Distance → List (Expr Distance)
  | .group inner => exprSupers inner
  | .unary _ operand => exprSupers operand
  | .binary left _ right => exprSupers left ++ exprSupers right
  | .logical left _ right => exprSupers left ++ exprSupers right
  | .setField object _ value => exprSupers object ++ exprSupers value
  | .getField object _ => exprSupers object
  | .call callee _ arguments => exprSupers callee ++ exprsSupers arguments
  | .superRef keyword method site => [.superRef keyword method site]
  | .literal _ | .name _ _ | .thisRef _ _ | .unknown => []

/-- The same in several expressions. -/
def exprsSupers : List (Expr Distance) → List (Expr Distance)
  | [] => []
  | e :: es => exprSupers e ++ exprsSupers es

end

/-- The same in an expression that may be absent. -/
def exprSupers? : Option (Expr Distance) → List (Expr Distance)
  | none => []
  | some e => exprSupers e

mutual

/-- The `super` expressions in a statement.  Those of a class declaration belong to its class. -/
def stmtSupers : Stmt Distance → List (Expr Distance)
  | .block body => stmtsSupers body
  | .define r => routineSupers r
  | .evaluate e => exprSupers e
  | .branch condition whenTrue none => exprSupers condition ++ stmtSupers whenTrue
  | .branch condition whenTrue (some whenFalse) =>
    exprSupers condition ++ (stmtSupers whenTrue ++ stmtSupers whenFalse)
  | .print e => exprSupers e
  | .giveBack _ value => exprSupers? value
  | .assign _ value _ => exprSupers? value
  | .loop condition body => exprSupers condition ++ stmtSupers body
  | .classDef _ _ _ | .unknown => []

/-- The same in several statements. -/
def stmtsSupers : List (Stmt Distance) → List (Expr Distance)
  | [] => []
  | s :: ss => stmtSupers s ++ stmtsSupers ss

/-- The same in the body of a routine. -/
def routineSupers : Routine Distance → List (Expr Distance)
  | .mk _ _ body _ => stmtsSupers body

end

/-! ## Marks -/

/-- The declaration of a class that has a superclass. -/
structure Declaration where
  name : Token
  parent : Token × Distance
  methods : List (Routine Distance)

/-- What a scope is for. -/
inductive Mark where
  | block
  /-- A call of the routine. -/
  | call (r : Routine Distance)
  /-- The instance to which the method is bound. -/
  | this (r : Routine Distance)
  /-- The superclass of the class that is declared. -/
  | super (declaration : Declaration)

/-- Whether a scope is one of a block or of a call. -/
def Mark.isLocal : Mark → Bool
  | block | call _ => true
  | this _ | super _ => false

/-- The scopes up to the nearest class: local ones, then a call of a method of the class, its instance and the
superclass.  The method is one of those that are declared there. -/
structure Reaches (marks inner : List Mark) (r : Routine Distance) (d : Declaration) : Prop where
  marks : ∃ outer, marks = inner ++ .call r :: .this r :: .super d :: outer
  inner : ∀ mark ∈ inner, mark.isLocal = true
  method : r ∈ d.methods

/-- A `super` whose distance leads to the nearest class, and which is one of those of the method there. -/
def SuperAt (marks : List Mark) (e : Expr Distance) : Prop :=
  ∃ inner r d, Reaches marks inner r d ∧ e ∈ routineSupers r ∧
    ∃ keyword method, e = .superRef keyword method (some (inner.length + 2))

/-- Every `super` of the expression leads to the nearest class. -/
def ExprLies (marks : List Mark) (e : Expr Distance) : Prop :=
  ∀ x ∈ exprSupers e, SuperAt marks x

/-- The marks around the methods of a class. -/
def classMarks (name : Token) (parent : Option (Token × Distance)) (methods : List (Routine Distance))
    (marks : List Mark) : List Mark :=
  match parent with
  | none => marks
  | some p => .super ⟨name, p, methods⟩ :: marks

mutual

/-- Every `super` of the statement leads to the nearest class, and names that are bound can be bound. -/
def StmtLies (marks : List Mark) : Stmt Distance → Prop
  | .block body => StmtsLie (.block :: marks) body
  | .define r => Bindable r.name.lexeme ∧ RoutineLies marks r
  | .classDef name parent methods =>
    Bindable name.lexeme ∧ MethodsLie (classMarks name parent methods marks) methods
  | .evaluate e => ExprLies marks e
  | .branch condition whenTrue none => ExprLies marks condition ∧ StmtLies marks whenTrue
  | .branch condition whenTrue (some whenFalse) =>
    ExprLies marks condition ∧ StmtLies marks whenTrue ∧ StmtLies marks whenFalse
  | .print e => ExprLies marks e
  | .giveBack _ value => ∀ e ∈ value, ExprLies marks e
  | .assign name value _ => Bindable name.lexeme ∧ ∀ e ∈ value, ExprLies marks e
  | .loop condition body => ExprLies marks condition ∧ StmtLies marks body
  | .unknown => True

/-- The same of several statements. -/
def StmtsLie (marks : List Mark) : List (Stmt Distance) → Prop
  | [] => True
  | s :: ss => StmtLies marks s ∧ StmtsLie marks ss

/-- The same of a routine, inside one of its calls. -/
def RoutineLies (marks : List Mark) : Routine Distance → Prop
  | .mk name params body returnType =>
    (∀ t ∈ params, Bindable t.lexeme) ∧ StmtsLie (.call (.mk name params body returnType) :: marks) body

/-- The same of methods, each bound to an instance. -/
def MethodsLie (marks : List Mark) : List (Routine Distance) → Prop
  | [] => True
  | r :: rs => RoutineLies (.this r :: marks) r ∧ MethodsLie marks rs

end

theorem routineLies_iff {marks : List Mark} {r : Routine Distance} :
    RoutineLies marks r ↔ (∀ t ∈ r.params, Bindable t.lexeme) ∧ StmtsLie (.call r :: marks) r.body := by
  cases r
  rfl

theorem methodsLie_iff {marks : List Mark} {rs : List (Routine Distance)} :
    MethodsLie marks rs ↔ ∀ r ∈ rs, RoutineLies (.this r :: marks) r := by
  induction rs with
  | nil => simp [MethodsLie]
  | cons r rs ih => rw [MethodsLie, ih, List.forall_mem_cons]

namespace ExprLies

variable {marks : List Mark}

theorem group {inner : Expr Distance} (h : ExprLies marks (.group inner)) : ExprLies marks inner :=
  h

theorem unary {operator : Token} {operand : Expr Distance} (h : ExprLies marks (.unary operator operand)) :
    ExprLies marks operand :=
  h

theorem binary {operator : Token} {left right : Expr Distance} (h : ExprLies marks (.binary left operator right)) :
    ExprLies marks left ∧ ExprLies marks right :=
  List.forall_mem_append.1 h

theorem logical {operator : Token} {left right : Expr Distance}
    (h : ExprLies marks (.logical left operator right)) : ExprLies marks left ∧ ExprLies marks right :=
  List.forall_mem_append.1 h

theorem setField {field : Token} {object value : Expr Distance} (h : ExprLies marks (.setField object field value)) :
    ExprLies marks object ∧ ExprLies marks value :=
  List.forall_mem_append.1 h

theorem getField {field : Token} {object : Expr Distance} (h : ExprLies marks (.getField object field)) :
    ExprLies marks object :=
  h

theorem all {es : List (Expr Distance)} (h : ∀ x ∈ exprsSupers es, SuperAt marks x) :
    ∀ e ∈ es, ExprLies marks e := by
  induction es with
  | nil => exact fun _ he => absurd he List.not_mem_nil
  | cons e es ih =>
    obtain ⟨he, hes⟩ := List.forall_mem_append.1 h
    exact List.forall_mem_cons.2 ⟨he, ih hes⟩

theorem call {callee : Expr Distance} {paren : Token} {arguments : List (Expr Distance)}
    (h : ExprLies marks (.call callee paren arguments)) :
    ExprLies marks callee ∧ ∀ e ∈ arguments, ExprLies marks e := by
  obtain ⟨hcallee, harguments⟩ := List.forall_mem_append.1 h
  exact ⟨hcallee, all harguments⟩

theorem super {keyword method : Token} {site : Distance} (h : ExprLies marks (.superRef keyword method site)) :
    SuperAt marks (.superRef keyword method site) :=
  h _ (List.mem_singleton_self _)

end ExprLies

/-! ## Marks and scopes -/

/-- In a class with a superclass, the marks reach it, and the scope of the superclass is as far as they say. -/
def Lays (owner : Owner) (marks : List Mark) (scopes : List Scope) : Prop :=
  owner = .subclass → ∃ inner r d, Reaches marks inner r d ∧ distance? scopes "super" = some (inner.length + 2)

/-- If the marks reach a class, the expression is one of the `super` expressions of the method there. -/
def Belongs (marks : List Mark) (e : Expr Distance) : Prop :=
  ∀ inner r d, Reaches marks inner r d → e ∈ routineSupers r

section Marks

variable {owner : Owner} {marks inner : List Mark} {scopes : List Scope} {r : Routine Distance}
  {d : Declaration} {e : Expr Distance}

theorem Reaches.cons {mark : Mark} (h : Reaches marks inner r d) (hmark : mark.isLocal = true) :
    Reaches (mark :: marks) (mark :: inner) r d := by
  obtain ⟨outer, rfl⟩ := h.marks
  exact ⟨⟨outer, rfl⟩, List.forall_mem_cons.2 ⟨hmark, h.inner⟩, h.method⟩

/-- The call of a method reaches its class. -/
theorem reaches_method (marks : List Mark) (hr : r ∈ d.methods) :
    Reaches (.call r :: .this r :: .super d :: marks) [] r d :=
  ⟨⟨marks, rfl⟩, fun _ h => (List.not_mem_nil h).elim, hr⟩

/-- One more local scope. -/
theorem Lays.cons {mark : Mark} {scope : Scope} (h : Lays owner marks scopes) (hmark : mark.isLocal = true)
    (hscope : scope.declares "super" = false) : Lays owner (mark :: marks) (scope :: scopes) := by
  intro howner
  obtain ⟨inner, r, d, hreaches, hdistance⟩ := h howner
  refine ⟨mark :: inner, r, d, hreaches.cons hmark, ?_⟩
  rw [distance?_cons_of_not_declares hscope, hdistance]
  rfl

theorem Lays.enter {name : String} (h : Lays owner marks scopes) (hname : Bindable name) (ready : Bool) :
    Lays owner marks (enter name ready scopes) := by
  intro howner
  obtain ⟨inner, r, d, hreaches, hdistance⟩ := h howner
  exact ⟨inner, r, d, hreaches, (distance?_enter_of_ne hname.2 ready scopes).trans hdistance⟩

theorem Lays.declared {s : Stmt Distance} (h : Lays owner marks scopes)
    (hs : ∀ name ∈ boundName? s, Bindable name) : Lays owner marks (declared s scopes) := by
  unfold Binding.declared
  split
  · exact (h.enter (hs _ rfl) false).enter (hs _ rfl) true
  · exact h.enter (hs _ rfl) true
  · exact h.enter (hs _ rfl) true
  · exact h

/-- Inside a call of a method. -/
theorem lays_method {params : List Token} (hparams : ∀ t ∈ params, Bindable t.lexeme) {name : Token}
    {parent : Option (Token × Distance)} {methods : List (Routine Distance)} (hr : r ∈ methods)
    (marks : List Mark) (scopes : List Scope) :
    Lays (if parent.isSome then .subclass else .baseClass)
      (.call r :: .this r :: classMarks name parent methods marks)
      (paramScope params :: classScopes parent.isSome scopes) := by
  cases parent with
  | none => exact nofun
  | some p =>
    intro _
    have hscope := declares_paramScope fun t ht => (hparams t ht).2
    refine ⟨[], r, ⟨name, p, methods⟩, reaches_method marks hr, ?_⟩
    rw [distance?_cons_of_not_declares hscope]
    rfl

theorem Belongs.block (h : Belongs marks e) : Belongs (.block :: marks) e := by
  intro inner r d hreaches
  obtain ⟨outer, hmarks⟩ := hreaches.marks
  cases inner with
  | nil => cases hmarks
  | cons mark inner =>
    obtain ⟨rfl, rfl⟩ := List.cons.inj hmarks
    exact h inner r d ⟨⟨outer, rfl⟩, (List.forall_mem_cons.1 hreaches.inner).2, hreaches.method⟩

/-- Inside a call of a routine, whose `super` expression it is. -/
theorem Belongs.call (h : Belongs marks e) {r : Routine Distance} (he : e ∈ routineSupers r) :
    Belongs (.call r :: marks) e := by
  intro inner r' d hreaches
  obtain ⟨outer, hmarks⟩ := hreaches.marks
  cases inner with
  | nil =>
    cases hmarks
    exact he
  | cons mark inner =>
    obtain ⟨rfl, rfl⟩ := List.cons.inj hmarks
    exact h inner r' d ⟨⟨outer, rfl⟩, (List.forall_mem_cons.1 hreaches.inner).2, hreaches.method⟩

/-- No class is reached from the scope of an instance. -/
theorem belongs_this (r : Routine Distance) (marks : List Mark) (e : Expr Distance) :
    Belongs (.this r :: marks) e := by
  intro inner r' d hreaches
  obtain ⟨outer, hmarks⟩ := hreaches.marks
  cases inner with
  | nil => cases hmarks
  | cons mark inner =>
    obtain ⟨rfl, -⟩ := List.cons.inj hmarks
    cases hreaches.inner _ List.mem_cons_self

end Marks

/-! ## Expressions -/

/-- A `super` in a class with a superclass, with the distance of its scope. -/
def LeadsTo (owner : Owner) (scopes : List Scope) (e : Expr Distance) : Prop :=
  owner = .subclass ∧ ∃ keyword method, e = .superRef keyword method (distance? scopes "super")

theorem LeadsTo.superAt {owner : Owner} {marks : List Mark} {scopes : List Scope} {e : Expr Distance}
    (h : LeadsTo owner scopes e) (hlays : Lays owner marks scopes) (hbelongs : Belongs marks e) :
    SuperAt marks e := by
  obtain ⟨howner, keyword, method, rfl⟩ := h
  obtain ⟨inner, r, d, hreaches, hdistance⟩ := hlays howner
  exact ⟨inner, r, d, hreaches, hbelongs inner r d hreaches, keyword, method, by rw [hdistance]⟩

mutual

/-- Every `super` of an expression that is bound without a report leads to the scope of the superclass. -/
theorem expr_leads (ctx : Context) : (e : Expr Unit) → ∀ {b : Expr Distance} {w w' : Walk},
    expr ctx e w = .ok b w' → w'.reports = [] → ∀ x ∈ exprSupers b, LeadsTo ctx.owner w.scopes x
  | .literal _, b, w, w', h, hw => by
    simp only [expr, pure_eq_ok_iff] at h
    obtain ⟨rfl, -⟩ := h
    exact fun _ hx => (List.not_mem_nil hx).elim
  | .group inner, b, w, w', h, hw => by
    simp only [expr, bind_eq_ok_iff, pure_eq_ok_iff] at h
    obtain ⟨_, _, hi, rfl, rfl⟩ := h
    exact fun x hx => expr_leads ctx inner hi hw x hx
  | .unary _ operand, b, w, w', h, hw => by
    simp only [expr, bind_eq_ok_iff, pure_eq_ok_iff] at h
    obtain ⟨_, _, ho, rfl, rfl⟩ := h
    exact fun x hx => expr_leads ctx operand ho hw x hx
  | .binary left _ right, b, w, w', h, hw => by
    simp only [expr, bind_eq_ok_iff, pure_eq_ok_iff] at h
    obtain ⟨_, _, hl, _, _, hr, rfl, rfl⟩ := h
    have hright := expr_leads ctx right hr hw
    rw [(expr_keeps ctx left hl).scopes] at hright
    refine List.forall_mem_append.2 ⟨?_, hright⟩
    exact expr_leads ctx left hl ((expr_keeps ctx right hr).quiet hw)
  | .logical left _ right, b, w, w', h, hw => by
    simp only [expr, bind_eq_ok_iff, pure_eq_ok_iff] at h
    obtain ⟨_, _, hl, _, _, hr, rfl, rfl⟩ := h
    have hright := expr_leads ctx right hr hw
    rw [(expr_keeps ctx left hl).scopes] at hright
    refine List.forall_mem_append.2 ⟨?_, hright⟩
    exact expr_leads ctx left hl ((expr_keeps ctx right hr).quiet hw)
  | .name _ _, b, w, w', h, hw => by
    simp only [expr, bind_eq_ok_iff, pure_eq_ok_iff] at h
    obtain ⟨_, _, _, rfl, rfl⟩ := h
    exact fun _ hx => (List.not_mem_nil hx).elim
  | .setField object _ value, b, w, w', h, hw => by
    simp only [expr, bind_eq_ok_iff, pure_eq_ok_iff] at h
    obtain ⟨_, _, hv, _, _, ho, rfl, rfl⟩ := h
    have hobject := expr_leads ctx object ho hw
    rw [(expr_keeps ctx value hv).scopes] at hobject
    refine List.forall_mem_append.2 ⟨hobject, ?_⟩
    exact expr_leads ctx value hv ((expr_keeps ctx object ho).quiet hw)
  | .getField object _, b, w, w', h, hw => by
    simp only [expr, bind_eq_ok_iff, pure_eq_ok_iff] at h
    obtain ⟨_, _, ho, rfl, rfl⟩ := h
    exact fun x hx => expr_leads ctx object ho hw x hx
  | .call callee _ arguments, b, w, w', h, hw => by
    simp only [expr, bind_eq_ok_iff, pure_eq_ok_iff] at h
    obtain ⟨_, _, hc, _, _, ha, rfl, rfl⟩ := h
    have harguments := exprs_lead ctx arguments ha hw
    rw [(expr_keeps ctx callee hc).scopes] at harguments
    refine List.forall_mem_append.2 ⟨?_, harguments⟩
    exact expr_leads ctx callee hc ((exprs_keeps ctx arguments ha).quiet hw)
  | .thisRef keyword _, b, w, w', h, hw => by
    simp only [expr] at h
    split at h <;> simp only [bind_eq_ok_iff, pure_eq_ok_iff] at h <;> obtain ⟨_, _, _, rfl, rfl⟩ := h
    · exact fun _ hx => (List.not_mem_nil hx).elim
    · exact fun _ hx => (List.not_mem_nil hx).elim
  | .superRef keyword method _, b, w, w', h, hw => by
    simp only [expr, bind_eq_ok_iff, pure_eq_ok_iff] at h
    obtain ⟨_, _, hc, _, _, hl, rfl, rfl⟩ := h
    obtain ⟨rfl, rfl⟩ := ok_of_locate hl
    obtain ⟨hk, howner⟩ := ok_of_checkSuper hc
    intro x hx
    rw [List.mem_singleton.1 hx, hk.scopes]
    exact ⟨howner hw, keyword, method, rfl⟩
  | .unknown, b, w, w', h, hw => by
    simp only [expr] at h
    exact absurd h throw_ne_ok

theorem exprs_lead (ctx : Context) : (es : List (Expr Unit)) → ∀ {bs : List (Expr Distance)} {w w' : Walk},
    exprs ctx es w = .ok bs w' → w'.reports = [] → ∀ x ∈ exprsSupers bs, LeadsTo ctx.owner w.scopes x
  | [], bs, w, w', h, hw => by
    simp only [exprs, pure_eq_ok_iff] at h
    obtain ⟨rfl, -⟩ := h
    exact fun _ hx => (List.not_mem_nil hx).elim
  | e :: es, bs, w, w', h, hw => by
    simp only [exprs, bind_eq_ok_iff, pure_eq_ok_iff] at h
    obtain ⟨_, _, he, _, _, hes, rfl, rfl⟩ := h
    have hmore := exprs_lead ctx es hes hw
    rw [(expr_keeps ctx e he).scopes] at hmore
    refine List.forall_mem_append.2 ⟨?_, hmore⟩
    exact expr_leads ctx e he ((exprs_keeps ctx es hes).quiet hw)

end

theorem expr?_leads (ctx : Context) {e : Option (Expr Unit)} {b : Option (Expr Distance)} {w w' : Walk}
    (h : expr? ctx e w = .ok b w') (hw : w'.reports = []) :
    ∀ x ∈ exprSupers? b, LeadsTo ctx.owner w.scopes x := by
  cases e with
  | none =>
    obtain ⟨rfl, -⟩ := ok_of_pure h
    exact fun _ hx => (List.not_mem_nil hx).elim
  | some e =>
    simp only [expr?, bind_eq_ok_iff, pure_eq_ok_iff] at h
    obtain ⟨_, _, he, rfl, rfl⟩ := h
    exact expr_leads ctx e he hw

section Lying

variable {ctx : Context} {marks : List Mark} {w w' : Walk}

theorem expr_lies {e : Expr Unit} {b : Expr Distance} (h : expr ctx e w = .ok b w') (hw : w'.reports = [])
    (hlays : Lays ctx.owner marks w.scopes) (hmine : ∀ x ∈ exprSupers b, Belongs marks x) :
    ExprLies marks b :=
  fun x hx => (expr_leads ctx e h hw x hx).superAt hlays (hmine x hx)

theorem expr?_lies {e : Option (Expr Unit)} {b : Option (Expr Distance)} (h : expr? ctx e w = .ok b w')
    (hw : w'.reports = []) (hlays : Lays ctx.owner marks w.scopes)
    (hmine : ∀ x ∈ exprSupers? b, Belongs marks x) : ∀ e ∈ b, ExprLies marks e := by
  rintro e rfl x hx
  exact (expr?_leads ctx h hw x hx).superAt hlays (hmine x hx)

/-- The name of `set` is not entered where the superclass could be looked for. -/
theorem assign_lies {name : Token} {value : Option (Expr Unit)} {b : Stmt Distance} (hname : Bindable name.lexeme)
    (h : assign ctx name value w = .ok b w') (hw : w'.reports = []) (hlays : Lays ctx.owner marks w.scopes)
    (hmine : ∀ x ∈ stmtSupers b, Belongs marks x) : StmtLies marks b := by
  rcases ok_of_assign h with ⟨d, v, -, hv, rfl⟩ | ⟨v, inner, -, hv, rfl, rfl⟩
  · exact ⟨hname, expr?_lies hv hw hlays hmine⟩
  · exact ⟨hname, expr?_lies hv hw (hlays.enter hname false) hmine⟩

end Lying

/-! ## Statements -/

theorem bindable_params {r : Routine Unit} (hp : r.Plain) : ∀ t ∈ r.params, Bindable t.lexeme := by
  cases r
  exact hp.1

mutual

/-- **Where `super` leads.**  In a statement that is bound without a report every `super` leads to the nearest
class around it, as long as the marks say where this is. -/
theorem stmt_lies (ctx : Context) : (s : Stmt Unit) → s.Plain → ∀ {b : Stmt Distance} {w w' : Walk}
    {marks : List Mark}, stmt ctx s w = .ok b w' → w'.reports = [] → Lays ctx.owner marks w.scopes →
      (∀ x ∈ stmtSupers b, Belongs marks x) → StmtLies marks b
  | .block body, hp, b, w, w', marks, h, hw, hlays, hmine => by
    simp only [stmt, bind_eq_ok_iff, pure_eq_ok_iff] at h
    obtain ⟨_, _, hin, rfl, rfl⟩ := h
    obtain ⟨inner, hbody, rfl⟩ := ok_of_inScope hin
    exact stmts_lie ctx body hp hbody hw (hlays.cons rfl rfl) fun x hx => (hmine x hx).block
  | .define r, hp, b, w, w', marks, h, hw, hlays, hmine => by
    simp only [stmt, bind_eq_ok_iff, pure_eq_ok_iff] at h
    obtain ⟨_, _, hd, r', _, hr, rfl, rfl⟩ := h
    cases hd
    have hname := (routine_keeps _ r hp.2 hr).2
    have hparams := declares_paramScope fun t ht => (bindable_params hp.2 t ht).2
    refine ⟨by rw [hname]; exact hp.1, routine_lies { ctx with body := .function } r hp.2 hr hw ?_ ?_⟩
    · exact (hlays.enter hp.1 true).cons rfl hparams
    · exact fun x hx => (hmine x hx).call hx
  | .classDef name parent methods, hp, b, w, w', marks, h, hw, hlays, hmine => by
    simp only [stmt, bind_eq_ok_iff, pure_eq_ok_iff] at h
    obtain ⟨_, _, hd, parent', w₁, hs, methods', _, hm, rfl, rfl⟩ := h
    cases hd
    obtain ⟨inner, hmethods, hreports, -⟩ := ok_of_inClass hm
    rw [hreports] at hw
    refine ⟨hp.1, methods_lie _ methods hp.2 hmethods hw fun r hr params hparams => ?_⟩
    rw [scopes_withinClass, ← isSome_of_superclass hs]
    exact lays_method hparams hr _ _
  | .evaluate e, _, b, w, w', marks, h, hw, hlays, hmine => by
    simp only [stmt, bind_eq_ok_iff, pure_eq_ok_iff] at h
    obtain ⟨_, _, he, rfl, rfl⟩ := h
    exact expr_lies he hw hlays hmine
  | .branch condition whenTrue none, hp, b, w, w', marks, h, hw, hlays, hmine => by
    simp only [stmt, bind_eq_ok_iff, pure_eq_ok_iff] at h
    obtain ⟨_, w₁, hc, _, _, ht, rfl, rfl⟩ := h
    obtain ⟨hcondition, hwhen⟩ := List.forall_mem_append.1 hmine
    have hk := (stmt_declares ctx whenTrue hp.2.2 ht).keeps hp.2.1
    have hlays₁ := hlays
    rw [← (expr_keeps ctx condition hc).scopes] at hlays₁
    exact ⟨expr_lies hc (hk.quiet hw) hlays hcondition, stmt_lies ctx whenTrue hp.2.2 ht hw hlays₁ hwhen⟩
  | .branch condition whenTrue (some whenFalse), hp, b, w, w', marks, h, hw, hlays, hmine => by
    simp only [stmt, bind_eq_ok_iff, pure_eq_ok_iff] at h
    obtain ⟨_, w₁, hc, _, w₂, ht, _, _, hf, rfl, rfl⟩ := h
    obtain ⟨-, ⟨htn, htp⟩, hfn, hfp⟩ := hp
    obtain ⟨hcondition, hmore⟩ := List.forall_mem_append.1 hmine
    obtain ⟨hwhen, hother⟩ := List.forall_mem_append.1 hmore
    have hk := (stmt_declares ctx whenTrue htp ht).keeps htn
    have hw₂ := ((stmt_declares ctx whenFalse hfp hf).keeps hfn).quiet hw
    have hlays₁ := hlays
    rw [← (expr_keeps ctx condition hc).scopes] at hlays₁
    have hlays₂ := hlays₁
    rw [← hk.scopes] at hlays₂
    exact ⟨expr_lies hc (hk.quiet hw₂) hlays hcondition, stmt_lies ctx whenTrue htp ht hw₂ hlays₁ hwhen,
      stmt_lies ctx whenFalse hfp hf hw hlays₂ hother⟩
  | .print e, _, b, w, w', marks, h, hw, hlays, hmine => by
    simp only [stmt, bind_eq_ok_iff, pure_eq_ok_iff] at h
    obtain ⟨_, _, he, rfl, rfl⟩ := h
    exact expr_lies he hw hlays hmine
  | .giveBack keyword value, _, b, w, w', marks, h, hw, hlays, hmine => by
    simp only [stmt, bind_eq_ok_iff, pure_eq_ok_iff] at h
    obtain ⟨_, w₁, hr, _, _, he, rfl, rfl⟩ := h
    rw [← (keeps_checkReturn hr).scopes] at hlays
    exact expr?_lies he hw hlays hmine
  | .assign name value _, hp, b, w, w', marks, h, hw, hlays, hmine => by
    simp only [stmt] at h
    exact assign_lies hp.1 h hw hlays hmine
  | .loop condition body, hp, b, w, w', marks, h, hw, hlays, hmine => by
    simp only [stmt, bind_eq_ok_iff, pure_eq_ok_iff] at h
    obtain ⟨_, w₁, hc, _, _, hb, rfl, rfl⟩ := h
    obtain ⟨hcondition, hbody⟩ := List.forall_mem_append.1 hmine
    have hk := (stmt_declares ctx body hp.2.2 hb).keeps hp.2.1
    have hlays₁ := hlays
    rw [← (expr_keeps ctx condition hc).scopes] at hlays₁
    exact ⟨expr_lies hc (hk.quiet hw) hlays hcondition, stmt_lies ctx body hp.2.2 hb hw hlays₁ hbody⟩
  | .unknown, _, b, w, w', marks, h, _, _, _ => by
    simp only [stmt] at h
    exact absurd h throw_ne_ok

theorem stmts_lie (ctx : Context) : (ss : List (Stmt Unit)) → Stmt.PlainAll ss →
    ∀ {bs : List (Stmt Distance)} {w w' : Walk} {marks : List Mark}, stmts ctx ss w = .ok bs w' →
      w'.reports = [] → Lays ctx.owner marks w.scopes → (∀ x ∈ stmtsSupers bs, Belongs marks x) →
      StmtsLie marks bs
  | [], _, bs, w, w', marks, h, _, _, _ => by
    simp only [stmts, pure_eq_ok_iff] at h
    obtain ⟨rfl, -⟩ := h
    trivial
  | s :: ss, hp, bs, w, w', marks, h, hw, hlays, hmine => by
    simp only [stmts, bind_eq_ok_iff, pure_eq_ok_iff] at h
    obtain ⟨b, w₁, hs, _, _, hss, rfl, rfl⟩ := h
    obtain ⟨hfirst, hmore⟩ := List.forall_mem_append.1 hmine
    have hdeclares := stmt_declares ctx s hp.1 hs
    have hw₁ : w₁.reports = [] := List.prefix_nil.1 (hw ▸ (stmts_keepsOuter ctx ss hp.2 hss).reports)
    have hlays₁ : Lays ctx.owner marks w₁.scopes := by
      rw [hdeclares.scopes]
      exact hlays.declared (hdeclares.bindable hp.1)
    exact ⟨stmt_lies ctx s hp.1 hs hw₁ hlays hfirst, stmts_lie ctx ss hp.2 hss hw hlays₁ hmore⟩

theorem routine_lies (ctx : Context) : (r : Routine Unit) → r.Plain → ∀ {r' : Routine Distance}
    {w w' : Walk} {marks : List Mark}, routine ctx r w = .ok r' w' → w'.reports = [] →
      Lays ctx.owner (.call r' :: marks) (paramScope r.params :: w.scopes) →
      (∀ x ∈ routineSupers r', Belongs (.call r' :: marks) x) → RoutineLies marks r'
  | .mk name params body returnType, hp, r', w, w', marks, h, hw, hlays, hmine => by
    simp only [routine, bind_eq_ok_iff, pure_eq_ok_iff] at h
    obtain ⟨_, _, hin, rfl, rfl⟩ := h
    obtain ⟨inner, hbody, rfl⟩ := ok_of_inScope hin
    exact ⟨hp.1, stmts_lie ctx body hp.2 hbody hw hlays hmine⟩

theorem methods_lie (ctx : Context) : (rs : List (Routine Unit)) → Routine.PlainAll rs →
    ∀ {rs' : List (Routine Distance)} {w w' : Walk} {marks : List Mark}, routines ctx rs w = .ok rs' w' →
      w'.reports = [] →
      (∀ r ∈ rs', ∀ params : List Token, (∀ t ∈ params, Bindable t.lexeme) →
        Lays ctx.owner (.call r :: .this r :: marks) (paramScope params :: w.scopes)) →
      MethodsLie marks rs'
  | [], _, rs', w, w', marks, h, _, _ => by
    simp only [routines, pure_eq_ok_iff] at h
    obtain ⟨rfl, -⟩ := h
    trivial
  | r :: rs, hp, rs', w, w', marks, h, hw, hlays => by
    simp only [routines, bind_eq_ok_iff, pure_eq_ok_iff] at h
    obtain ⟨r', w₁, hr, rs', _, hrs, rfl, rfl⟩ := h
    have hw₁ := (routines_keep ctx rs hp.2 hrs).quiet hw
    rw [List.forall_mem_cons] at hlays
    constructor
    · refine routine_lies { ctx with body := methodBody r } r hp.1 hr hw₁ ?_ ?_
      · exact hlays.1 _ (bindable_params hp.1)
      · exact fun x hx => (belongs_this r' marks x).call hx
    · refine methods_lie ctx rs hp.2 hrs hw fun s hs params hparams => ?_
      rw [(routine_keeps _ r hp.1 hr).1.scopes]
      exact hlays.2 s hs params hparams

end

theorem program_lies {known : List String} {statements : List (Stmt Unit)} {bound : List (Stmt Distance)}
    (hp : Stmt.PlainAll statements) (h : program known statements = ⟨.ok bound, []⟩) : StmtsLie [] bound := by
  unfold program at h
  cases hwalk : stmts (.top (globalNames known statements)) statements ⟨[], []⟩ with
  | error e w =>
    rw [hwalk] at h
    cases h
  | ok bs w =>
    rw [hwalk] at h
    obtain ⟨hbound, hw⟩ := Outcome.mk.inj h
    obtain rfl := Except.ok.inj hbound
    refine stmts_lie _ statements hp hwalk hw (fun howner => nomatch howner) ?_
    rintro x - inner r d ⟨⟨outer, hmarks⟩, -, -⟩
    simp at hmarks

end Offside.Binding
