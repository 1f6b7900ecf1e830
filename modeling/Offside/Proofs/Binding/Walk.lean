import Offside.Proofs.Binding.Scopes
import Offside.Proofs.Binding.Visits
import Offside.Proofs.Steps

/-!
# What the walk does to scopes and reports

Expressions leave the scopes as they are; a statement declares the name that it binds, and nothing else.  No
step of the walk forgets a report, so that a walk without reports is one in which no step complained.

* `Binding.expr_keeps`, `Binding.exprs_keeps` — expressions;
* `Binding.stmt_declares`, `Binding.stmts_keepsOuter` — statements;
* `Binding.routine_keeps`, `Binding.routines_keep` — functions and methods.
-/

set_option autoImplicit false

namespace Offside.Binding

open Step

/-! ## Single steps -/

/-- The scopes are the same and no report is forgotten. -/
structure Keeps (w w' : Walk) : Prop where
  scopes : w'.scopes = w.scopes
  reports : w.reports <+: w'.reports

theorem Keeps.refl (w : Walk) : Keeps w w :=
  ⟨rfl, List.prefix_refl _⟩

theorem Keeps.trans {w w' w'' : Walk} (h : Keeps w w') (h' : Keeps w' w'') : Keeps w w'' :=
  ⟨h'.scopes.trans h.scopes, h.reports.trans h'.reports⟩

theorem Keeps.quiet {w w' : Walk} (h : Keeps w w') (hw : w'.reports = []) : w.reports = [] :=
  List.prefix_nil.1 (hw ▸ h.reports)

theorem keeps_complain {t : Token} {problem : Problem} {w w' : Walk} {u : Unit}
    (h : complain t problem w = .ok u w') : Keeps w w' := by
  cases h
  exact ⟨rfl, List.prefix_append _ _⟩

theorem loud_complain {t : Token} {problem : Problem} {w w' : Walk} {u : Unit}
    (h : complain t problem w = .ok u w') : w'.reports ≠ [] := by
  cases h
  exact List.append_ne_nil_of_right_ne_nil _ (List.cons_ne_nil _ _)

theorem ok_of_locate {name : String} {site : Distance} {w w' : Walk} (h : locate name w = .ok site w') :
    site = distance? w.scopes name ∧ w' = w := by
  cases h
  exact ⟨rfl, rfl⟩

/-- A variable that is read: it is pending and reported, or it is just located. -/
theorem ok_of_locateVariable {t : Token} {site : Distance} {w w' : Walk}
    (h : locateVariable t w = .ok site w') :
    Keeps w w' ∧ site = distance? w.scopes t.lexeme ∧
      (w'.reports = [] → isPending w.scopes t.lexeme = false) := by
  unfold locateVariable at h
  obtain ⟨v, u, hget, h⟩ := ok_of_bind h
  cases hget
  split at h
  · obtain ⟨a, w₁, hc, h⟩ := ok_of_bind h
    obtain ⟨rfl, rfl⟩ := ok_of_locate h
    refine ⟨keeps_complain hc, by rw [(keeps_complain hc).scopes], fun hw => ?_⟩
    exact absurd hw (loud_complain hc)
  · next hp =>
    obtain ⟨rfl, rfl⟩ := ok_of_locate h
    exact ⟨Keeps.refl _, rfl, fun _ => Bool.eq_false_iff.2 hp⟩

/-- A step inside one more scope starts inside it, and its scope is closed behind it. -/
theorem ok_of_inScope {α : Type} {scope : Scope} {step : Binder α} {a : α} {w w' : Walk}
    (h : inScope scope step w = .ok a w') :
    ∃ inner, step (w.within scope) = .ok a inner ∧
      w' = { inner with scopes := inner.scopes.tail } := by
  unfold inScope at h
  obtain ⟨_, _, hin, h⟩ := ok_of_bind h
  cases hin
  obtain ⟨b, inner, hstep, h⟩ := ok_of_bind h
  obtain ⟨_, _, hout, h⟩ := ok_of_bind h
  cases hout
  obtain ⟨rfl, rfl⟩ := ok_of_pure h
  exact ⟨inner, hstep, rfl⟩

/-- A `super` that is not reported stands in a class with a superclass. -/
theorem ok_of_checkSuper {ctx : Context} {keyword : Token} {w w' : Walk} {u : Unit}
    (h : checkSuper ctx keyword w = .ok u w') :
    Keeps w w' ∧ (w'.reports = [] → ctx.owner = .subclass) := by
  unfold checkSuper at h
  cases ho : ctx.owner with
  | noClass | baseClass =>
    rw [ho] at h
    exact ⟨keeps_complain h, fun hw => absurd hw (loud_complain h)⟩
  | subclass =>
    rw [ho] at h
    obtain ⟨-, rfl⟩ := ok_of_pure h
    exact ⟨Keeps.refl w, fun _ => rfl⟩

/-! ## Expressions -/

mutual

/-- An expression leaves the scopes as they are. -/
theorem expr_keeps (ctx : Context) : (e : Expr Unit) → ∀ {b : Expr Distance} {w w' : Walk},
    expr ctx e w = .ok b w' → Keeps w w'
  | .literal _, b, w, w', h => by
    simp only [expr, pure_eq_ok_iff] at h
    exact h.2 ▸ Keeps.refl w
  | .group inner, b, w, w', h => by
    simp only [expr, bind_eq_ok_iff, pure_eq_ok_iff] at h
    obtain ⟨_, _, hi, -, rfl⟩ := h
    exact expr_keeps ctx inner hi
  | .unary _ operand, b, w, w', h => by
    simp only [expr, bind_eq_ok_iff, pure_eq_ok_iff] at h
    obtain ⟨_, _, ho, -, rfl⟩ := h
    exact expr_keeps ctx operand ho
  | .binary left _ right, b, w, w', h => by
    simp only [expr, bind_eq_ok_iff, pure_eq_ok_iff] at h
    obtain ⟨_, _, hl, _, _, hr, -, rfl⟩ := h
    exact (expr_keeps ctx left hl).trans (expr_keeps ctx right hr)
  | .logical left _ right, b, w, w', h => by
    simp only [expr, bind_eq_ok_iff, pure_eq_ok_iff] at h
    obtain ⟨_, _, hl, _, _, hr, -, rfl⟩ := h
    exact (expr_keeps ctx left hl).trans (expr_keeps ctx right hr)
  | .name token _, b, w, w', h => by
    simp only [expr, bind_eq_ok_iff, pure_eq_ok_iff] at h
    obtain ⟨_, _, hl, -, rfl⟩ := h
    exact (ok_of_locateVariable hl).1
  | .setField object _ value, b, w, w', h => by
    simp only [expr, bind_eq_ok_iff, pure_eq_ok_iff] at h
    obtain ⟨_, _, hv, _, _, ho, -, rfl⟩ := h
    exact (expr_keeps ctx value hv).trans (expr_keeps ctx object ho)
  | .getField object _, b, w, w', h => by
    simp only [expr, bind_eq_ok_iff, pure_eq_ok_iff] at h
    obtain ⟨_, _, ho, -, rfl⟩ := h
    exact expr_keeps ctx object ho
  | .call callee _ arguments, b, w, w', h => by
    simp only [expr, bind_eq_ok_iff, pure_eq_ok_iff] at h
    obtain ⟨_, _, hc, _, _, ha, -, rfl⟩ := h
    exact (expr_keeps ctx callee hc).trans (exprs_keeps ctx arguments ha)
  | .thisRef keyword _, b, w, w', h => by
    simp only [expr] at h
    split at h
    · simp only [bind_eq_ok_iff, pure_eq_ok_iff] at h
      obtain ⟨_, _, hc, -, rfl⟩ := h
      exact keeps_complain hc
    · simp only [bind_eq_ok_iff, pure_eq_ok_iff] at h
      obtain ⟨_, _, hl, -, rfl⟩ := h
      exact (ok_of_locate hl).2 ▸ Keeps.refl w
  | .superRef keyword method _, b, w, w', h => by
    simp only [expr, bind_eq_ok_iff, pure_eq_ok_iff] at h
    obtain ⟨_, _, hc, _, _, hl, -, rfl⟩ := h
    exact (ok_of_locate hl).2 ▸ (ok_of_checkSuper hc).1
  | .unknown, b, w, w', h => by
    simp only [expr] at h
    exact absurd h throw_ne_ok

/-- Several expressions leave the scopes as they are. -/
theorem exprs_keeps (ctx : Context) : (es : List (Expr Unit)) → ∀ {bs : List (Expr Distance)}
    {w w' : Walk}, exprs ctx es w = .ok bs w' → Keeps w w'
  | [], bs, w, w', h => by
    simp only [exprs, pure_eq_ok_iff] at h
    exact h.2 ▸ Keeps.refl w
  | e :: es, bs, w, w', h => by
    simp only [exprs, bind_eq_ok_iff, pure_eq_ok_iff] at h
    obtain ⟨_, _, he, _, _, hes, -, rfl⟩ := h
    exact (expr_keeps ctx e he).trans (exprs_keeps ctx es hes)

end

theorem expr?_keeps (ctx : Context) {e : Option (Expr Unit)} {b : Option (Expr Distance)} {w w' : Walk}
    (h : expr? ctx e w = .ok b w') : Keeps w w' := by
  cases e with
  | none =>
    obtain ⟨-, rfl⟩ := ok_of_pure h
    exact Keeps.refl w
  | some e =>
    simp only [expr?, bind_eq_ok_iff, pure_eq_ok_iff] at h
    obtain ⟨_, _, he, -, rfl⟩ := h
    exact expr_keeps ctx e he

/-! ## Statements -/

theorem keeps_checkReturn {ctx : Context} {keyword : Token} {hasValue : Bool} {w w' : Walk} {u : Unit}
    (h : checkReturn ctx keyword hasValue w = .ok u w') : Keeps w w' := by
  unfold checkReturn at h
  have hvalue : ∀ {w₁ : Walk}, (if hasValue && ctx.body = .initializer then
      complain keyword .returnFromInitializer else pure PUnit.unit) w₁ = .ok u w' → Keeps w₁ w' := by
    intro w₁ h
    split at h
    · exact keeps_complain h
    · exact (ok_of_pure h).2 ▸ Keeps.refl w₁
  split at h
  · obtain ⟨_, _, hc, h⟩ := ok_of_bind h
    exact (keeps_complain hc).trans (hvalue h)
  · exact hvalue h

/-- The superclass of a declaration is a variable that is read, and not the class itself. -/
theorem ok_of_superclass {name t : Token} {parent : Option (Token × Distance)} {w w' : Walk}
    (h : superclass name (some (t, ())) w = .ok parent w') :
    Keeps w w' ∧ parent = some (t, distance? w.scopes t.lexeme) ∧
      (w'.reports = [] → name.lexeme ≠ t.lexeme) := by
  simp only [superclass] at h
  split at h
  · simp only [bind_eq_ok_iff, pure_eq_ok_iff] at h
    obtain ⟨_, _, hc, _, _, hl, rfl, rfl⟩ := h
    obtain ⟨hk, rfl, -⟩ := ok_of_locateVariable hl
    refine ⟨(keeps_complain hc).trans hk, by rw [(keeps_complain hc).scopes], fun hw => ?_⟩
    exact absurd (hk.quiet hw) (loud_complain hc)
  · next hne =>
    simp only [bind_eq_ok_iff, pure_eq_ok_iff] at h
    obtain ⟨_, _, hl, rfl, rfl⟩ := h
    obtain ⟨hk, rfl, -⟩ := ok_of_locateVariable hl
    exact ⟨hk, rfl, fun _ he => hne (beq_iff_eq.2 he.symm)⟩

theorem ok_of_superclass_none {name : Token} {parent : Option (Token × Distance)} {w w' : Walk}
    (h : superclass name none w = .ok parent w') : parent = none ∧ w' = w := by
  obtain ⟨rfl, rfl⟩ := ok_of_pure h
  exact ⟨rfl, rfl⟩

theorem superclass_keeps {name : Token} {parent : Option (Token × Unit)}
    {parent' : Option (Token × Distance)} {w w' : Walk} (h : superclass name parent w = .ok parent' w') :
    Keeps w w' := by
  cases parent with
  | none => exact (ok_of_superclass_none h).2 ▸ Keeps.refl w
  | some p => exact (ok_of_superclass h).1

theorem isSome_of_superclass {name : Token} {parent : Option (Token × Unit)}
    {parent' : Option (Token × Distance)} {w w' : Walk} (h : superclass name parent w = .ok parent' w') :
    parent'.isSome = parent.isSome := by
  cases parent with
  | none => rw [(ok_of_superclass_none h).1]; rfl
  | some p => rw [(ok_of_superclass h).2.1]; rfl

/-- The methods of a class are walked in the scopes of the class, which are closed behind them. -/
theorem ok_of_inClass {α : Type} {derived : Bool} {step : Binder α} {a : α} {w w' : Walk}
    (h : inClass derived step w = .ok a w') :
    ∃ inner, step (w.withinClass derived) = .ok a inner ∧ w'.reports = inner.reports ∧
      (Keeps (w.withinClass derived) inner → Keeps w w') := by
  cases derived with
  | false =>
    obtain ⟨inner, hstep, rfl⟩ := ok_of_inScope h
    exact ⟨inner, hstep, rfl, fun hk => ⟨congrArg List.tail hk.scopes, hk.reports⟩⟩
  | true =>
    obtain ⟨middle, hmiddle, rfl⟩ := ok_of_inScope h
    obtain ⟨inner, hstep, rfl⟩ := ok_of_inScope hmiddle
    exact ⟨inner, hstep, rfl, fun hk => ⟨congrArg (List.tail ∘ List.tail) hk.scopes, hk.reports⟩⟩

theorem scopes_withinClass (derived : Bool) (w : Walk) :
    (w.withinClass derived).scopes = classScopes derived w.scopes := by
  cases derived <;> rfl

/-- The statement `s` becomes `b`, which binds the same name and declares it; no report is forgotten. -/
structure Declares (s : Stmt Unit) (b : Stmt Distance) (w w' : Walk) : Prop where
  name : boundName? b = boundName? s
  scopes : w'.scopes = declared b w.scopes
  reports : w.reports <+: w'.reports

/-- The scopes around the innermost one are the same and no report is forgotten. -/
structure KeepsOuter (w w' : Walk) : Prop where
  scopes : w'.scopes.tail = w.scopes.tail
  reports : w.reports <+: w'.reports

theorem Keeps.declares {s : Stmt Unit} {b : Stmt Distance} {w w' : Walk} (h : Keeps w w')
    (hs : boundName? s = none) (hb : boundName? b = none) : Declares s b w w' :=
  ⟨hb.trans hs.symm, h.scopes.trans (declared_of_boundName? hb _).symm, h.reports⟩

/-- A statement that binds no name leaves the scopes as they are. -/
theorem Declares.keeps {s : Stmt Unit} {b : Stmt Distance} {w w' : Walk} (h : Declares s b w w')
    (hs : boundName? s = none) : Keeps w w' :=
  ⟨h.scopes.trans (declared_of_boundName? (h.name.trans hs) _), h.reports⟩

theorem Declares.bindable {s : Stmt Unit} {b : Stmt Distance} {w w' : Walk} (h : Declares s b w w')
    (hp : s.Plain) : ∀ name ∈ boundName? b, Bindable name := by
  intro name hb
  have hs : boundName? s = some name := h.name ▸ hb
  cases s with
  | define r => exact Option.some.inj hs ▸ hp.1
  | classDef t parent methods => exact Option.some.inj hs ▸ hp.1
  | assign t value site => exact Option.some.inj hs ▸ hp.1
  | _ => cases hs

theorem Declares.keepsOuter {s : Stmt Unit} {b : Stmt Distance} {w w' : Walk} (h : Declares s b w w') :
    KeepsOuter w w' :=
  ⟨by rw [h.scopes, tail_declared], h.reports⟩

theorem KeepsOuter.trans {w w' w'' : Walk} (h : KeepsOuter w w') (h' : KeepsOuter w' w'') :
    KeepsOuter w w'' :=
  ⟨h'.scopes.trans h.scopes, h.reports.trans h'.reports⟩

/-- What is left open inside a scope is closed with it. -/
theorem KeepsOuter.close {scope : Scope} {w inner : Walk} (h : KeepsOuter (w.within scope) inner) :
    Keeps w { inner with scopes := inner.scopes.tail } :=
  ⟨h.scopes, h.reports⟩

/-- `set` assigns at a distance, or it declares its name behind the value. -/
theorem ok_of_assign {ctx : Context} {name : Token} {value : Option (Expr Unit)} {b : Stmt Distance}
    {w w' : Walk} (h : assign ctx name value w = .ok b w') :
    (∃ d v, target? ctx.globals w.scopes name.lexeme = some d ∧ expr? ctx value w = .ok v w' ∧
        b = .assign name v (some d)) ∨
      ∃ v inner, target? ctx.globals w.scopes name.lexeme = none ∧
        expr? ctx value (w.entering name.lexeme false) = .ok v inner ∧
        b = .assign name v none ∧ w' = inner.entering name.lexeme true := by
  unfold assign at h
  obtain ⟨_, _, hget, h⟩ := ok_of_bind h
  cases hget
  cases ht : target? ctx.globals w.scopes name.lexeme with
  | some d =>
    simp only [ht, bind_eq_ok_iff, pure_eq_ok_iff] at h
    obtain ⟨v, _, he, rfl, rfl⟩ := h
    exact .inl ⟨d, v, rfl, he, rfl⟩
  | none =>
    simp only [ht, bind_eq_ok_iff, pure_eq_ok_iff] at h
    obtain ⟨_, _, hd, v, inner, he, _, _, hd', rfl, rfl⟩ := h
    cases hd
    cases hd'
    exact .inr ⟨v, inner, rfl, he, rfl, rfl⟩

theorem assign_declares {ctx : Context} {name : Token} {value : Option (Expr Unit)} {b : Stmt Distance}
    {w w' : Walk} (h : assign ctx name value w = .ok b w') : Declares (.assign name value ()) b w w' := by
  rcases ok_of_assign h with ⟨d, v, -, he, rfl⟩ | ⟨v, inner, -, he, rfl, rfl⟩
  · have hk := expr?_keeps ctx he
    exact ⟨rfl, hk.scopes, hk.reports⟩
  · have hk := expr?_keeps ctx he
    exact ⟨rfl, congrArg (enter name.lexeme true) hk.scopes, hk.reports⟩

mutual

/-- A statement declares the name that it binds, and nothing else. -/
theorem stmt_declares (ctx : Context) : (s : Stmt Unit) → s.Plain → ∀ {b : Stmt Distance} {w w' : Walk},
    stmt ctx s w = .ok b w' → Declares s b w w'
  | .block body, hp, b, w, w', h => by
    simp only [stmt, bind_eq_ok_iff, pure_eq_ok_iff] at h
    obtain ⟨_, _, hin, rfl, rfl⟩ := h
    obtain ⟨inner, hbody, rfl⟩ := ok_of_inScope hin
    exact (stmts_keepsOuter ctx body hp hbody).close.declares rfl rfl
  | .define r, hp, b, w, w', h => by
    simp only [stmt, bind_eq_ok_iff, pure_eq_ok_iff] at h
    obtain ⟨_, _, hd, r', _, hr, rfl, rfl⟩ := h
    cases hd
    obtain ⟨hk, hname⟩ := routine_keeps _ r hp.2 hr
    exact ⟨by rw [boundName?, boundName?, hname], by rw [hk.scopes, declared, hname], hk.reports⟩
  | .classDef name parent methods, hp, b, w, w', h => by
    simp only [stmt, bind_eq_ok_iff, pure_eq_ok_iff] at h
    obtain ⟨_, _, hd, _, _, hs, _, _, hm, rfl, rfl⟩ := h
    cases hd
    obtain ⟨inner, hmethods, -, hclose⟩ := ok_of_inClass hm
    have hk := (superclass_keeps hs).trans (hclose (routines_keep _ methods hp.2 hmethods))
    exact ⟨rfl, hk.scopes, hk.reports⟩
  | .evaluate e, hp, b, w, w', h => by
    simp only [stmt, bind_eq_ok_iff, pure_eq_ok_iff] at h
    obtain ⟨_, _, he, rfl, rfl⟩ := h
    exact (expr_keeps ctx e he).declares rfl rfl
  | .branch condition whenTrue none, hp, b, w, w', h => by
    simp only [stmt, bind_eq_ok_iff, pure_eq_ok_iff] at h
    obtain ⟨_, _, hc, _, _, ht, rfl, rfl⟩ := h
    have hk := (stmt_declares ctx whenTrue hp.2.2 ht).keeps hp.2.1
    exact ((expr_keeps ctx condition hc).trans hk).declares rfl rfl
  | .branch condition whenTrue (some whenFalse), hp, b, w, w', h => by
    simp only [stmt, bind_eq_ok_iff, pure_eq_ok_iff] at h
    obtain ⟨_, _, hc, _, _, ht, _, _, hf, rfl, rfl⟩ := h
    obtain ⟨-, ⟨htn, htp⟩, hfn, hfp⟩ := hp
    have hk := (stmt_declares ctx whenTrue htp ht).keeps htn
    have hk' := (stmt_declares ctx whenFalse hfp hf).keeps hfn
    exact (((expr_keeps ctx condition hc).trans hk).trans hk').declares rfl rfl
  | .print e, hp, b, w, w', h => by
    simp only [stmt, bind_eq_ok_iff, pure_eq_ok_iff] at h
    obtain ⟨_, _, he, rfl, rfl⟩ := h
    exact (expr_keeps ctx e he).declares rfl rfl
  | .giveBack keyword value, hp, b, w, w', h => by
    simp only [stmt, bind_eq_ok_iff, pure_eq_ok_iff] at h
    obtain ⟨_, _, hc, _, _, he, rfl, rfl⟩ := h
    exact ((keeps_checkReturn hc).trans (expr?_keeps ctx he)).declares rfl rfl
  | .assign name value _, hp, b, w, w', h => by
    simp only [stmt] at h
    exact assign_declares h
  | .loop condition body, hp, b, w, w', h => by
    simp only [stmt, bind_eq_ok_iff, pure_eq_ok_iff] at h
    obtain ⟨_, _, hc, _, _, hb, rfl, rfl⟩ := h
    have hk := (stmt_declares ctx body hp.2.2 hb).keeps hp.2.1
    exact ((expr_keeps ctx condition hc).trans hk).declares rfl rfl
  | .unknown, _, b, w, w', h => by
    simp only [stmt] at h
    exact absurd h throw_ne_ok

/-- Statements declare names in the innermost scope alone. -/
theorem stmts_keepsOuter (ctx : Context) : (ss : List (Stmt Unit)) → Stmt.PlainAll ss →
    ∀ {bs : List (Stmt Distance)} {w w' : Walk}, stmts ctx ss w = .ok bs w' → KeepsOuter w w'
  | [], _, bs, w, w', h => by
    simp only [stmts, pure_eq_ok_iff] at h
    exact h.2 ▸ ⟨rfl, List.prefix_refl _⟩
  | s :: ss, hp, bs, w, w', h => by
    simp only [stmts, bind_eq_ok_iff, pure_eq_ok_iff] at h
    obtain ⟨_, _, hs, _, _, hss, -, rfl⟩ := h
    exact (stmt_declares ctx s hp.1 hs).keepsOuter.trans (stmts_keepsOuter ctx ss hp.2 hss)

/-- A routine leaves the scopes as they are. -/
theorem routine_keeps (ctx : Context) : (r : Routine Unit) → r.Plain → ∀ {r' : Routine Distance}
    {w w' : Walk}, routine ctx r w = .ok r' w' → Keeps w w' ∧ r'.name = r.name
  | .mk name params body returnType, hp, r', w, w', h => by
    simp only [routine, bind_eq_ok_iff, pure_eq_ok_iff] at h
    obtain ⟨_, _, hin, rfl, rfl⟩ := h
    obtain ⟨inner, hbody, rfl⟩ := ok_of_inScope hin
    exact ⟨(stmts_keepsOuter ctx body hp.2 hbody).close, rfl⟩

/-- Methods leave the scopes as they are. -/
theorem routines_keep (ctx : Context) : (rs : List (Routine Unit)) → Routine.PlainAll rs →
    ∀ {rs' : List (Routine Distance)} {w w' : Walk}, routines ctx rs w = .ok rs' w' → Keeps w w'
  | [], _, rs', w, w', h => by
    simp only [routines, pure_eq_ok_iff] at h
    exact h.2 ▸ Keeps.refl w
  | r :: rs, hp, rs', w, w', h => by
    simp only [routines, bind_eq_ok_iff, pure_eq_ok_iff] at h
    obtain ⟨_, _, hr, _, _, hrs, -, rfl⟩ := h
    exact (routine_keeps _ r hp.1 hr).1.trans (routines_keep ctx rs hp.2 hrs)

end
end Offside.Binding
