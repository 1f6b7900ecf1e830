import Offside.Proofs.Binding.Known
import Offside.Proofs.Reader.Provenance

/-!
# Where binding complains

The walk that binds names reports problems at tokens of the tree that it walks.  On a tree that was read it goes to
its end, also if the text has errors, and everything that it reports is at a token of the text.  `T` stands for these
tokens.

* `Report.Stands` — a report at one of the tokens;
* `Binding.Stands` — a step of the walk with such reports only, with one lemma for each kind of node;
* `Binding.stands_program` — a whole program.
-/

set_option autoImplicit false

namespace Offside

/-- A report at one of the tokens `T`. -/
def Report.Stands (T : Token → Prop) (r : Report) : Prop :=
  ∃ t problem, T t ∧ r = Report.atToken t problem

namespace Binding

open Step

variable {α β : Type} {T : Token → Prop}

/-- The step yields a value, and all that is reported stands at the tokens `T` if it did before. -/
def Stands (T : Token → Prop) (p : Binder α) : Prop :=
  ∀ w : Walk, (∀ r ∈ w.reports, r.Stands T) →
    Ends (p w) (fun _ w' => ∀ r ∈ w'.reports, r.Stands T) (fun _ _ => False)

theorem stands_pure (a : α) : Stands T (pure a : Binder α) :=
  fun _ h => h

theorem Stands.bind {p : Binder α} {f : α → Binder β} (hp : Stands T p) (hf : ∀ a, Stands T (f a)) :
    Stands T (p >>= f) :=
  fun w h => (hp w h).bind fun a w' h' => hf a w' h'

theorem Stands.map {p : Binder α} (g : α → β) (hp : Stands T p) : Stands T (g <$> p) :=
  hp.bind fun a => stands_pure (g a)

/-- A step that only looks at the scopes, or changes them. -/
theorem stands_of_quiet {p : Binder α} (h : ∀ w, ∃ a w', p w = .ok a w' ∧ w'.reports = w.reports) : Stands T p := by
  intro w hw
  obtain ⟨a, w', hok, hreports⟩ := h w
  exact .of_ok hok (hreports ▸ hw)

theorem stands_complain {t : Token} (ht : T t) (problem : Problem) : Stands T (complain t problem) := by
  intro w hw r hr
  rcases List.mem_append.1 hr with hr | hr
  · exact hw r hr
  · exact ⟨t, problem, ht, List.mem_singleton.1 hr⟩

theorem stands_declare (name : String) (ready : Bool) : Stands T (declare name ready) :=
  stands_of_quiet fun _ => ⟨_, _, rfl, rfl⟩

theorem stands_locate (name : String) : Stands T (locate name) :=
  stands_of_quiet fun _ => ⟨_, _, rfl, rfl⟩

theorem stands_get : Stands T (get : Binder Walk) :=
  stands_of_quiet fun _ => ⟨_, _, rfl, rfl⟩

theorem stands_locateVariable {t : Token} (ht : T t) : Stands T (locateVariable t) := by
  refine stands_get.bind fun w => ?_
  split
  · exact (stands_complain ht _).bind fun _ => stands_locate _
  · exact (stands_pure _).bind fun _ => stands_locate _

theorem Stands.inScope {p : Binder α} (hp : Stands T p) (scope : Scope) : Stands T (inScope scope p) := by
  have hopen : Stands T (modify fun w => { w with scopes := scope :: w.scopes } : Binder Unit) :=
    stands_of_quiet fun _ => ⟨_, _, rfl, rfl⟩
  have hclose : Stands T (modify fun w => { w with scopes := w.scopes.tail } : Binder Unit) :=
    stands_of_quiet fun _ => ⟨_, _, rfl, rfl⟩
  exact hopen.bind fun _ => hp.bind fun a => hclose.bind fun _ => stands_pure a

theorem Stands.inClass {p : Binder α} (hp : Stands T p) (derived : Bool) : Stands T (inClass derived p) := by
  cases derived with
  | true => exact (hp.inScope _).inScope _
  | false => exact hp.inScope _

/-! ## Expressions -/

theorem stands_checkSuper (ctx : Context) {keyword : Token} (h : T keyword) : Stands T (checkSuper ctx keyword) := by
  unfold checkSuper
  split
  · exact stands_complain h _
  · exact stands_complain h _
  · exact stands_pure ()

mutual

theorem stands_expr (ctx : Context) : (e : Expr Unit) → e.Drawn T → Stands T (expr ctx e)
  | .literal value, _ => stands_pure _
  | .group inner, h => (stands_expr ctx inner h).map Expr.group
  | .unary operator operand, h => (stands_expr ctx operand h.2).map (Expr.unary operator)
  | .binary left operator right, h =>
    (stands_expr ctx left h.1).bind fun _ => (stands_expr ctx right h.2.2).bind fun _ => stands_pure _
  | .logical left operator right, h =>
    (stands_expr ctx left h.1).bind fun _ => (stands_expr ctx right h.2.2).bind fun _ => stands_pure _
  | .name token _, h => (stands_locateVariable h.1).map (Expr.name token)
  | .setField object field value, h =>
    (stands_expr ctx value h.2.2).bind fun _ => (stands_expr ctx object h.1).bind fun _ => stands_pure _
  | .getField object field, h => (stands_expr ctx object h.1).map (Expr.getField · field)
  | .call callee paren arguments, h =>
    (stands_expr ctx callee h.1).bind fun _ => (stands_exprs ctx arguments h.2.2).bind fun _ => stands_pure _
  | .thisRef keyword _, h => by
    unfold expr
    split
    · exact (stands_complain h _).bind fun _ => stands_pure _
    · exact (stands_locate _).map (Expr.thisRef keyword)
  | .superRef keyword method _, h =>
    (stands_checkSuper ctx h.1).bind fun _ => (stands_locate _).map (Expr.superRef keyword method)
  | .unknown, h => h.elim

theorem stands_exprs (ctx : Context) : (es : List (Expr Unit)) → Expr.DrawnAll T es → Stands T (exprs ctx es)
  | [], _ => stands_pure _
  | e :: es, h => (stands_expr ctx e h.1).bind fun _ => (stands_exprs ctx es h.2).bind fun _ => stands_pure _

end

theorem stands_expr? (ctx : Context) {value : Option (Expr Unit)} (h : ∀ e ∈ value, e.Drawn T) :
    Stands T (expr? ctx value) := by
  cases value with
  | none => exact stands_pure _
  | some e => exact (stands_expr ctx e (h e rfl)).map some

/-! ## Statements -/

theorem stands_checkReturn (ctx : Context) {keyword : Token} (h : T keyword) (hasValue : Bool) :
    Stands T (checkReturn ctx keyword hasValue) := by
  obtain ⟨globals, body, owner⟩ := ctx
  cases body with
  | topLevel =>
    refine (stands_complain h .returnAtTopLevel).bind fun _ => ?_
    cases hasValue <;> exact stands_pure ()
  | initializer =>
    cases hasValue with
    | false => exact stands_pure ()
    | true => exact stands_complain h .returnFromInitializer
  | function | method => cases hasValue <;> exact stands_pure ()

theorem stands_superclass (name : Token) {parent : Option (Token × Unit)} (h : ∀ p ∈ parent, T p.1) :
    Stands T (superclass name parent) := by
  cases parent with
  | none => exact stands_pure _
  | some p =>
    have hcompared : Stands T (compareParent name p.1) := by
      unfold compareParent
      split
      · exact stands_complain (h p rfl) _
      · exact stands_pure ()
    rw [superclass_some]
    exact hcompared.bind fun _ => (stands_locateVariable (h p rfl)).bind fun _ => stands_pure _

theorem stands_assign (ctx : Context) (name : Token) {value : Option (Expr Unit)} (h : ∀ e ∈ value, e.Drawn T) :
    Stands T (assign ctx name value) := by
  refine stands_get.bind fun w => ?_
  split
  · exact (stands_expr? ctx h).bind fun _ => stands_pure _
  · refine (stands_declare _ _).bind fun _ => (stands_expr? ctx h).bind fun _ => ?_
    exact (stands_declare _ _).bind fun _ => stands_pure _

mutual

theorem stands_stmt (ctx : Context) : (s : Stmt Unit) → s.Drawn T → Stands T (stmt ctx s)
  | .block body, h => ((stands_stmts ctx body h).inScope []).map Stmt.block
  | .define r, h => (stands_declare _ _).bind fun _ => (stands_routine _ r h).map Stmt.define
  | .classDef name parent methods, h => by
    refine (stands_declare _ _).bind fun _ => (stands_superclass name fun p hp => (h.2.1 p hp).1).bind fun _ => ?_
    exact ((stands_routines _ methods h.2.2).inClass _).bind fun _ => stands_pure _
  | .evaluate e, h => (stands_expr ctx e h).map Stmt.evaluate
  | .branch condition whenTrue none, h =>
    (stands_expr ctx condition h.1).bind fun _ => (stands_stmt ctx whenTrue h.2).bind fun _ => stands_pure _
  | .branch condition whenTrue (some whenFalse), h =>
    (stands_expr ctx condition h.1).bind fun _ => (stands_stmt ctx whenTrue h.2.1).bind fun _ =>
      (stands_stmt ctx whenFalse h.2.2).bind fun _ => stands_pure _
  | .print e, h => (stands_expr ctx e h).map Stmt.print
  | .giveBack keyword value, h =>
    (stands_checkReturn ctx h.1 _).bind fun _ => (stands_expr? ctx h.2).map (Stmt.giveBack keyword)
  | .assign name value _, h => stands_assign ctx name h.2
  | .loop condition body, h =>
    (stands_expr ctx condition h.1).bind fun _ => (stands_stmt ctx body h.2).bind fun _ => stands_pure _
  | .unknown, h => h.elim

theorem stands_stmts (ctx : Context) : (ss : List (Stmt Unit)) → Stmt.DrawnAll T ss → Stands T (stmts ctx ss)
  | [], _ => stands_pure _
  | s :: ss, h => (stands_stmt ctx s h.1).bind fun _ => (stands_stmts ctx ss h.2).bind fun _ => stands_pure _

theorem stands_routine (ctx : Context) : (r : Routine Unit) → r.Drawn T → Stands T (routine ctx r)
  | .mk _ params body _, h => ((stands_stmts ctx body h.2.2.1).inScope (paramScope params)).bind fun _ => stands_pure _

theorem stands_routines (ctx : Context) : (rs : List (Routine Unit)) → Routine.DrawnAll T rs →
    Stands T (routines ctx rs)
  | [], _ => stands_pure _
  | r :: rs, h => (stands_routine _ r h.1).bind fun _ => (stands_routines ctx rs h.2).bind fun _ => stands_pure _

end

/-- The walk of a tree that is made of the tokens `T` goes to its end, and reports at these tokens alone. -/
theorem stands_program (known : List String) {statements : List (Stmt Unit)} (h : Stmt.DrawnAll T statements) :
    (∃ bound, (program known statements).result = .ok bound) ∧
      ∀ r ∈ (program known statements).reports, r.Stands T := by
  have hends := stands_stmts (.top (globalNames known statements)) statements h ⟨[], []⟩ (by simp)
  unfold program
  split
  · next bound w hok => exact ⟨⟨bound, rfl⟩, hends.value_of_ok hok⟩
  · next e w herror => exact (hends.fault_of_error herror).elim

end Binding
end Offside
