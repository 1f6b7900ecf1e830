import Offside.Proofs.Binding.Walk

/-!
# Distances that fit their scopes

A program whose names are bound without a report has distances that fit: every reference to a scope finds
its name declared there, with its value ready, and `super` stands just outside the `this` that goes with it.
The judgements say this of a tree and the scopes around it, together with the visit that recorded each node.

* `Binding.ExprFits`, `Binding.StmtFits` — the distances of a tree fit the scopes around it;
* `Binding.expr_fits`, `Binding.stmt_fits`, `Binding.program_fits` — what is bound without a report fits.
-/

set_option autoImplicit false

namespace Offside.Binding

open Step

/-! ## The judgements -/

section Judgements

variable (V : List Visit)

mutual

/-- The expression at the end of the path was visited with as many scopes open, and so were its parts; each
distance leads to a scope that has the name ready. -/
def ExprFits (path : Path) (scopes : List Scope) (e : Expr Distance) : Prop :=
  ⟨path, .expression e, scopes.length⟩ ∈ V ∧
    match e with
    | .literal _ => True
    | .group inner => ExprFits (0 :: path) scopes inner
    | .unary _ operand => ExprFits (0 :: path) scopes operand
    | .binary left _ right => ExprFits (0 :: path) scopes left ∧ ExprFits (1 :: path) scopes right
    | .logical left _ right => ExprFits (0 :: path) scopes left ∧ ExprFits (1 :: path) scopes right
    | .name token site => ∀ d ∈ site, Ready scopes d token.lexeme
    | .setField object _ value => ExprFits (0 :: path) scopes object ∧ ExprFits (1 :: path) scopes value
    | .getField object _ => ExprFits (0 :: path) scopes object
    | .call callee _ arguments => ExprFits (0 :: path) scopes callee ∧ ExprsFit path 1 scopes arguments
    | .thisRef keyword site => keyword.lexeme = "this" ∧ ∃ d, site = some d ∧ Ready scopes d "this"
    | .superRef _ _ site =>
      ∃ d, site = some (d + 1) ∧ Ready scopes (d + 1) "super" ∧ Ready scopes d "this"
    | .unknown => False

/-- The same of several expressions, which are parts from number `i` on. -/
def ExprsFit (path : Path) (i : Nat) (scopes : List Scope) (es : List (Expr Distance)) : Prop :=
  match es with
  | [] => True
  | e :: es => ExprFits (i :: path) scopes e ∧ ExprsFit path (i + 1) scopes es

end

mutual

/-- The statement at the end of the path was visited with as many scopes open, and so were its parts.  The name
of a superclass is judged without the name of the class; a value without the name that it is given. -/
def StmtFits (path : Path) (scopes : List Scope) (s : Stmt Distance) : Prop :=
  ⟨path, .statement s, scopes.length⟩ ∈ V ∧
    match s with
    | .block body => StmtsFit path 0 ([] :: scopes) body
    | .define r => Bindable r.name.lexeme ∧ RoutineFits path (enter r.name.lexeme true scopes) r
    | .classDef name parent methods =>
      Bindable name.lexeme ∧ (∀ p ∈ parent, ExprFits V (0 :: path) scopes (.name p.1 p.2)) ∧
        RoutinesFit path 1 (classScopes parent.isSome (enter name.lexeme true scopes)) methods
    | .evaluate e => ExprFits V (0 :: path) scopes e
    | .branch condition whenTrue none =>
      ExprFits V (0 :: path) scopes condition ∧ boundName? whenTrue = none ∧ StmtFits (1 :: path) scopes whenTrue
    | .branch condition whenTrue (some whenFalse) =>
      ExprFits V (0 :: path) scopes condition ∧
        (boundName? whenTrue = none ∧ StmtFits (1 :: path) scopes whenTrue) ∧
        boundName? whenFalse = none ∧ StmtFits (2 :: path) scopes whenFalse
    | .print e => ExprFits V (0 :: path) scopes e
    | .giveBack _ value => ∀ e ∈ value, ExprFits V (0 :: path) scopes e
    | .assign name value none =>
      Bindable name.lexeme ∧ ∀ e ∈ value, ExprFits V (0 :: path) (enter name.lexeme false scopes) e
    | .assign name value (some d) =>
      Bindable name.lexeme ∧ d ≤ scopes.length ∧ ∀ e ∈ value, ExprFits V (0 :: path) scopes e
    | .loop condition body =>
      ExprFits V (0 :: path) scopes condition ∧ boundName? body = none ∧ StmtFits (1 :: path) scopes body
    | .unknown => False

/-- The same of several statements, which are parts from number `i` on, each in the scopes that those before it
leave behind. -/
def StmtsFit (path : Path) (i : Nat) (scopes : List Scope) (ss : List (Stmt Distance)) : Prop :=
  match ss with
  | [] => True
  | s :: ss => StmtFits (i :: path) scopes s ∧ StmtsFit path (i + 1) (declared s scopes) ss

/-- A routine fits if its body fits inside the scope of its parameters. -/
def RoutineFits (path : Path) (scopes : List Scope) (r : Routine Distance) : Prop :=
  match r with
  | .mk _ params body _ =>
    (∀ t ∈ params, Bindable t.lexeme) ∧ StmtsFit path 0 (paramScope params :: scopes) body

/-- The same of several routines, which are parts from number `i` on. -/
def RoutinesFit (path : Path) (i : Nat) (scopes : List Scope) (rs : List (Routine Distance)) : Prop :=
  match rs with
  | [] => True
  | r :: rs => RoutineFits (i :: path) scopes r ∧ RoutinesFit path (i + 1) scopes rs

end

end Judgements

theorem ExprFits.seen {V : List Visit} {path : Path} {scopes : List Scope} {e : Expr Distance}
    (h : ExprFits V path scopes e) : ⟨path, .expression e, scopes.length⟩ ∈ V := by
  unfold ExprFits at h
  exact h.1

theorem StmtFits.seen {V : List Visit} {path : Path} {scopes : List Scope} {s : Stmt Distance}
    (h : StmtFits V path scopes s) : ⟨path, .statement s, scopes.length⟩ ∈ V := by
  unfold StmtFits at h
  exact h.1

theorem routineFits_iff {V : List Visit} {path : Path} {scopes : List Scope} {r : Routine Distance} :
    RoutineFits V path scopes r ↔
      (∀ t ∈ r.params, Bindable t.lexeme) ∧ StmtsFit V path 0 (paramScope r.params :: scopes) r.body := by
  cases r
  rfl

/-! ## What is bound without a report fits -/

/-- What an expression needs of the scopes around it. -/
structure Settled (owner : Owner) (scopes : List Scope) : Prop where
  owned : Owned owner scopes
  outer : AllReady scopes.tail

section Fits

variable {V : List Visit} {path : Path} {w w' : Walk} {scopes : List Scope}

theorem expr_seen {ctx : Context} {e : Expr Unit} {b : Expr Distance} (h : expr ctx e w = .ok b w')
    (hs : w.scopes = scopes) (hV : exprVisits ctx path e w ⊆ V) :
    ⟨path, .expression b, scopes.length⟩ ∈ V := by
  subst hs
  rw [exprVisits.eq_def, after_of_ok h] at hV
  exact hV (List.mem_append_left _ (List.mem_singleton.2 rfl))

theorem stmt_seen {ctx : Context} {s : Stmt Unit} {b : Stmt Distance} (h : stmt ctx s w = .ok b w')
    (hs : w.scopes = scopes) (hV : stmtVisits ctx path s w ⊆ V) :
    ⟨path, .statement b, scopes.length⟩ ∈ V := by
  subst hs
  rw [stmtVisits.eq_def, after_of_ok h] at hV
  exact hV (List.mem_append_left _ (List.mem_singleton.2 rfl))

end Fits

mutual

/-- An expression bound without a report fits the scopes in which it was walked. -/
theorem expr_fits {V : List Visit} {scopes : List Scope} (ctx : Context) (hset : Settled ctx.owner scopes) :
    (e : Expr Unit) → e.Plain → ∀ {path : Path} {b : Expr Distance} {w w' : Walk}, expr ctx e w = .ok b w' →
      w.scopes = scopes → w'.reports = [] → exprVisits ctx path e w ⊆ V → ExprFits V path scopes b
  | .literal _, hp, path, b, w, w', h, hs, hw, hV => by
    have hseen := expr_seen h hs hV
    simp only [expr, pure_eq_ok_iff] at h
    obtain ⟨rfl, -⟩ := h
    exact ⟨hseen, trivial⟩
  | .group inner, hp, path, b, w, w', h, hs, hw, hV => by
    have hseen := expr_seen h hs hV
    simp only [expr, bind_eq_ok_iff, pure_eq_ok_iff] at h
    obtain ⟨_, _, hi, rfl, rfl⟩ := h
    simp only [exprVisits, List.append_subset] at hV
    exact ⟨hseen, expr_fits ctx hset inner hp hi hs hw hV.2⟩
  | .unary _ operand, hp, path, b, w, w', h, hs, hw, hV => by
    have hseen := expr_seen h hs hV
    simp only [expr, bind_eq_ok_iff, pure_eq_ok_iff] at h
    obtain ⟨_, _, ho, rfl, rfl⟩ := h
    simp only [exprVisits, List.append_subset] at hV
    exact ⟨hseen, expr_fits ctx hset operand hp ho hs hw hV.2⟩
  | .binary left _ right, hp, path, b, w, w', h, hs, hw, hV => by
    have hseen := expr_seen h hs hV
    simp only [expr, bind_eq_ok_iff, pure_eq_ok_iff] at h
    obtain ⟨_, _, hl, _, _, hr, rfl, rfl⟩ := h
    simp only [exprVisits, after_of_ok hl, List.append_subset] at hV
    obtain ⟨-, hVl, hVr⟩ := hV
    have hquiet := (expr_keeps ctx right hr).quiet hw
    have hs' := (expr_keeps ctx left hl).scopes.trans hs
    refine ⟨hseen, ?_, ?_⟩
    · exact expr_fits ctx hset left hp.1 hl hs hquiet hVl
    · exact expr_fits ctx hset right hp.2 hr hs' hw hVr
  | .logical left _ right, hp, path, b, w, w', h, hs, hw, hV => by
    have hseen := expr_seen h hs hV
    simp only [expr, bind_eq_ok_iff, pure_eq_ok_iff] at h
    obtain ⟨_, _, hl, _, _, hr, rfl, rfl⟩ := h
    simp only [exprVisits, after_of_ok hl, List.append_subset] at hV
    obtain ⟨-, hVl, hVr⟩ := hV
    have hquiet := (expr_keeps ctx right hr).quiet hw
    have hs' := (expr_keeps ctx left hl).scopes.trans hs
    refine ⟨hseen, ?_, ?_⟩
    · exact expr_fits ctx hset left hp.1 hl hs hquiet hVl
    · exact expr_fits ctx hset right hp.2 hr hs' hw hVr
  | .name token _, hp, path, b, w, w', h, hs, hw, hV => by
    have hseen := expr_seen h hs hV
    simp only [expr, bind_eq_ok_iff, pure_eq_ok_iff] at h
    obtain ⟨_, _, hl, rfl, rfl⟩ := h
    obtain ⟨-, rfl, hpending⟩ := ok_of_locateVariable hl
    subst hs
    exact ⟨hseen, fun d hd => ready_of_distance? hset.outer (hpending hw) hd⟩
  | .setField object _ value, hp, path, b, w, w', h, hs, hw, hV => by
    have hseen := expr_seen h hs hV
    simp only [expr, bind_eq_ok_iff, pure_eq_ok_iff] at h
    obtain ⟨_, _, hv, _, _, ho, rfl, rfl⟩ := h
    simp only [exprVisits, after_of_ok hv, List.append_subset] at hV
    obtain ⟨-, hVv, hVo⟩ := hV
    have hquiet := (expr_keeps ctx object ho).quiet hw
    have hs' := (expr_keeps ctx value hv).scopes.trans hs
    refine ⟨hseen, ?_, ?_⟩
    · exact expr_fits ctx hset object hp.1 ho hs' hw hVo
    · exact expr_fits ctx hset value hp.2 hv hs hquiet hVv
  | .getField object _, hp, path, b, w, w', h, hs, hw, hV => by
    have hseen := expr_seen h hs hV
    simp only [expr, bind_eq_ok_iff, pure_eq_ok_iff] at h
    obtain ⟨_, _, ho, rfl, rfl⟩ := h
    simp only [exprVisits, List.append_subset] at hV
    exact ⟨hseen, expr_fits ctx hset object hp ho hs hw hV.2⟩
  | .call callee _ arguments, hp, path, b, w, w', h, hs, hw, hV => by
    have hseen := expr_seen h hs hV
    simp only [expr, bind_eq_ok_iff, pure_eq_ok_iff] at h
    obtain ⟨_, _, hc, _, _, ha, rfl, rfl⟩ := h
    simp only [exprVisits, after_of_ok hc, List.append_subset] at hV
    obtain ⟨-, hVc, hVa⟩ := hV
    have hquiet := (exprs_keeps ctx arguments ha).quiet hw
    have hs' := (expr_keeps ctx callee hc).scopes.trans hs
    refine ⟨hseen, ?_, ?_⟩
    · exact expr_fits ctx hset callee hp.1 hc hs hquiet hVc
    · exact exprs_fit ctx hset arguments hp.2 ha hs' hw hVa
  | .thisRef keyword _, hp, path, b, w, w', h, hs, hw, hV => by
    have hseen := expr_seen h hs hV
    simp only [expr] at h
    split at h
    · simp only [bind_eq_ok_iff, pure_eq_ok_iff] at h
      obtain ⟨_, _, hc, -, rfl⟩ := h
      exact absurd hw (loud_complain hc)
    · next howner =>
      simp only [bind_eq_ok_iff, pure_eq_ok_iff] at h
      obtain ⟨_, _, hl, rfl, rfl⟩ := h
      obtain ⟨rfl, rfl⟩ := ok_of_locate hl
      obtain ⟨d, hd, hready⟩ := hset.owned.this howner
      exact ⟨hseen, hp, d, by rw [hs, hd], hready⟩
  | .superRef keyword method _, hp, path, b, w, w', h, hs, hw, hV => by
    have hseen := expr_seen h hs hV
    simp only [expr, bind_eq_ok_iff, pure_eq_ok_iff] at h
    obtain ⟨_, _, hc, _, _, hl, rfl, rfl⟩ := h
    obtain ⟨rfl, rfl⟩ := ok_of_locate hl
    obtain ⟨hk, howner⟩ := ok_of_checkSuper hc
    have howned := hset.owned
    rw [howner hw] at howned
    obtain ⟨d, ⟨-, hthis⟩, hd, hsuper⟩ := howned
    exact ⟨hseen, d, by rw [hk.scopes, hs, hd], hsuper, hthis⟩
  | .unknown, hp, path, b, w, w', h, hs, hw, hV => by
    simp only [expr] at h
    exact absurd h throw_ne_ok

/-- Several expressions bound without a report fit the scopes in which they were walked. -/
theorem exprs_fit {V : List Visit} {scopes : List Scope} (ctx : Context) (hset : Settled ctx.owner scopes) :
    (es : List (Expr Unit)) → Expr.PlainAll es → ∀ {path : Path} {i : Nat} {bs : List (Expr Distance)}
      {w w' : Walk}, exprs ctx es w = .ok bs w' → w.scopes = scopes → w'.reports = [] →
      exprsVisits ctx path i es w ⊆ V → ExprsFit V path i scopes bs
  | [], hp, path, i, bs, w, w', h, hs, hw, hV => by
    simp only [exprs, pure_eq_ok_iff] at h
    obtain ⟨rfl, -⟩ := h
    trivial
  | e :: es, hp, path, i, bs, w, w', h, hs, hw, hV => by
    simp only [exprs, bind_eq_ok_iff, pure_eq_ok_iff] at h
    obtain ⟨_, _, he, _, _, hes, rfl, rfl⟩ := h
    simp only [exprsVisits, after_of_ok he, List.append_subset] at hV
    obtain ⟨hVe, hVes⟩ := hV
    have hquiet := (exprs_keeps ctx es hes).quiet hw
    have hs' := (expr_keeps ctx e he).scopes.trans hs
    constructor
    · exact expr_fits ctx hset e hp.1 he hs hquiet hVe
    · exact exprs_fit ctx hset es hp.2 hes hs' hw hVes

end

theorem expr?_fits {V : List Visit} {path : Path} {scopes : List Scope} {ctx : Context} (hset : Settled ctx.owner scopes)
    {e : Option (Expr Unit)} (hp : ∀ x ∈ e, x.Plain) {b : Option (Expr Distance)} {w w' : Walk}
    (h : expr? ctx e w = .ok b w') (hs : w.scopes = scopes) (hw : w'.reports = [])
    (hV : exprVisits? ctx path e w ⊆ V) : ∀ x ∈ b, ExprFits V path scopes x := by
  cases e with
  | none =>
    obtain ⟨rfl, -⟩ := ok_of_pure h
    intro x hx
    cases hx
  | some e =>
    simp only [expr?, bind_eq_ok_iff, pure_eq_ok_iff] at h
    obtain ⟨x, _, he, rfl, rfl⟩ := h
    have hfits := expr_fits ctx hset e (hp e rfl) he hs hw hV
    exact fun y hy => Option.some.inj hy ▸ hfits

/-- What a statement needs of the scopes around it. -/
structure Complete (owner : Owner) (scopes : List Scope) : Prop where
  owned : Owned owner scopes
  ready : AllReady scopes

theorem Complete.settled {owner : Owner} {scopes : List Scope} (h : Complete owner scopes) :
    Settled owner scopes :=
  ⟨h.owned, h.ready.tail⟩

/-- A name that is pending disturbs nothing around it. -/
theorem Complete.pending {owner : Owner} {scopes : List Scope} {name : String} (h : Complete owner scopes)
    (hname : Bindable name) : Settled owner (enter name false scopes) :=
  ⟨h.owned.enter hname false, by rw [tail_enter]; exact h.ready.tail⟩

theorem Complete.enter {owner : Owner} {scopes : List Scope} {name : String} (h : Complete owner scopes)
    (hname : Bindable name) : Complete owner (enter name true scopes) :=
  ⟨h.owned.enter hname true, h.ready.enter name⟩

theorem Complete.block {owner : Owner} {scopes : List Scope} (h : Complete owner scopes) :
    Complete owner ([] :: scopes) :=
  ⟨h.owned.cons rfl rfl, h.ready.cons fun _ he => nomatch he⟩

theorem Complete.params {owner : Owner} {scopes : List Scope} {params : List Token}
    (h : Complete owner scopes) (hp : ∀ t ∈ params, Bindable t.lexeme) :
    Complete owner (paramScope params :: scopes) :=
  ⟨h.owned.cons (declares_paramScope fun t ht => (hp t ht).1)
      (declares_paramScope fun t ht => (hp t ht).2), h.ready.cons (lookup_paramScope params)⟩

theorem Complete.classScopes {owner : Owner} {scopes : List Scope} (h : Complete owner scopes)
    (derived : Bool) : Complete (if derived then .subclass else .baseClass) (classScopes derived scopes) :=
  ⟨owned_classScopes derived scopes, allReady_classScopes derived h.ready⟩

theorem Complete.declared {owner : Owner} {scopes : List Scope} {s : Stmt Unit} {b : Stmt Distance}
    {w w' : Walk} (h : Complete owner scopes) (hp : s.Plain) (hd : Declares s b w w') :
    Complete owner (declared b scopes) := by
  refine ⟨?_, h.ready.declared b⟩
  have hbindable := hd.bindable hp
  unfold Binding.declared
  split
  · next name _ =>
    have hn := hbindable name.lexeme rfl
    exact (h.owned.enter hn false).enter hn true
  · next r => exact h.owned.enter (hbindable r.name.lexeme rfl) true
  · next name _ _ => exact h.owned.enter (hbindable name.lexeme rfl) true
  · exact h.owned

theorem assign_fits {V : List Visit} {path : Path} {scopes : List Scope} {ctx : Context} (hc : Complete ctx.owner scopes)
    {name : Token} {value : Option (Expr Unit)} (hp : (Stmt.assign name value ()).Plain)
    {b : Stmt Distance} {w w' : Walk} (h : assign ctx name value w = .ok b w') (hs : w.scopes = scopes)
    (hw : w'.reports = []) (hV : valueVisits ctx (0 :: path) name value w ⊆ V)
    (hseen : ⟨path, .statement b, scopes.length⟩ ∈ V) : StmtFits V path scopes b := by
  subst hs
  unfold valueVisits at hV
  rcases ok_of_assign h with ⟨d, v, ht, he, rfl⟩ | ⟨v, inner, ht, he, rfl, rfl⟩
  · rw [ht] at hV
    exact ⟨hseen, hp.1, le_of_target? ht, expr?_fits hc.settled hp.2 he rfl hw hV⟩
  · rw [ht] at hV
    exact ⟨hseen, hp.1, expr?_fits (hc.pending hp.1) hp.2 he rfl hw hV⟩

/-- The superclass of a class is found without the name of the class. -/
theorem superclass_fits {V : List Visit} {path : Path} {scopes : List Scope} {name : Token} (hr : AllReady scopes)
    {parent : Option (Token × Unit)} {parent' : Option (Token × Distance)} {w w' : Walk}
    (h : superclass name parent w = .ok parent' w') (hs : w.scopes = enter name.lexeme true scopes)
    (hw : w'.reports = []) (hV : superclassVisits path name parent w ⊆ V) :
    ∀ p ∈ parent', ExprFits V path scopes (.name p.1 p.2) := by
  rw [superclassVisits, after_of_ok h] at hV
  cases parent with
  | none =>
    rw [(ok_of_superclass_none h).1]
    intro p hp
    cases hp
  | some t =>
    obtain ⟨-, rfl, hne⟩ := ok_of_superclass h
    intro p hp
    obtain rfl := Option.some.inj hp
    have hseen := hV List.mem_cons_self
    rw [hs, length_enter] at hseen
    refine ⟨hs ▸ hseen, fun d hd => ?_⟩
    rw [hs, distance?_enter_of_ne (hne hw)] at hd
    exact ready_of_distance? hr.tail (not_isPending hr _) hd

mutual

/-- A statement bound without a report fits the scopes in which it was walked. -/
theorem stmt_fits {V : List Visit} {scopes : List Scope} (ctx : Context) (hc : Complete ctx.owner scopes) :
    (s : Stmt Unit) → s.Plain → ∀ {path : Path} {b : Stmt Distance} {w w' : Walk}, stmt ctx s w = .ok b w' →
      w.scopes = scopes → w'.reports = [] → stmtVisits ctx path s w ⊆ V → StmtFits V path scopes b
  | .block body, hp, path, b, w, w', h, hs, hw, hV => by
    have hseen := stmt_seen h hs hV
    simp only [stmt, bind_eq_ok_iff, pure_eq_ok_iff] at h
    obtain ⟨_, _, hin, rfl, rfl⟩ := h
    obtain ⟨inner, hbody, rfl⟩ := ok_of_inScope hin
    simp only [stmtVisits, List.append_subset] at hV
    exact ⟨hseen, stmts_fit ctx hc.block body hp hbody (congrArg (List.cons []) hs) hw hV.2⟩
  | .define r, hp, path, b, w, w', h, hs, hw, hV => by
    have hseen := stmt_seen h hs hV
    simp only [stmt, bind_eq_ok_iff, pure_eq_ok_iff] at h
    obtain ⟨_, _, hd, r', _, hr, rfl, rfl⟩ := h
    cases hd
    simp only [stmtVisits, List.append_subset] at hV
    have hname := (routine_keeps _ r hp.2 hr).2
    have hfits := routine_fits { ctx with body := .function } (hc.enter hp.1) r hp.2 hr
      (congrArg (enter r.name.lexeme true) hs) hw hV.2
    have hbindable := hp.1
    rw [← hname] at hbindable hfits
    exact ⟨hseen, hbindable, hfits⟩
  | .classDef name parent methods, hp, path, b, w, w', h, hs, hw, hV => by
    have hseen := stmt_seen h hs hV
    simp only [stmt, bind_eq_ok_iff, pure_eq_ok_iff] at h
    obtain ⟨_, _, hd, parent', w₁, hsuper, _, _, hm, rfl, rfl⟩ := h
    cases hd
    obtain ⟨inner, hmethods, hreports, hclose⟩ := ok_of_inClass hm
    have hsuper' : superclass name parent (w.entering name.lexeme true) = .ok parent' w₁ := hsuper
    simp only [stmtVisits, after_of_ok hsuper', List.append_subset] at hV
    obtain ⟨-, hVparent, hVmethods⟩ := hV
    have hs' : (w.entering name.lexeme true).scopes = enter name.lexeme true scopes :=
      congrArg (enter name.lexeme true) hs
    have hquiet := (hclose (routines_keep _ methods hp.2 hmethods)).quiet hw
    refine ⟨hseen, hp.1, ?_, ?_⟩
    · exact superclass_fits hc.ready hsuper' hs' hquiet hVparent
    · have hfits := routines_fit _ ((hc.enter hp.1).classScopes parent.isSome) methods hp.2 hmethods
        (by rw [scopes_withinClass, (superclass_keeps hsuper').scopes, hs']) (hreports ▸ hw) hVmethods
      rw [← isSome_of_superclass hsuper'] at hfits
      exact hfits
  | .evaluate e, hp, path, b, w, w', h, hs, hw, hV => by
    have hseen := stmt_seen h hs hV
    simp only [stmt, bind_eq_ok_iff, pure_eq_ok_iff] at h
    obtain ⟨_, _, he, rfl, rfl⟩ := h
    simp only [stmtVisits, List.append_subset] at hV
    exact ⟨hseen, expr_fits ctx hc.settled e hp he hs hw hV.2⟩
  | .branch condition whenTrue none, hp, path, b, w, w', h, hs, hw, hV => by
    have hseen := stmt_seen h hs hV
    simp only [stmt, bind_eq_ok_iff, pure_eq_ok_iff] at h
    obtain ⟨_, _, he, _, _, ht, rfl, rfl⟩ := h
    obtain ⟨hep, htn, htp⟩ := hp
    simp only [stmtVisits, after_of_ok he, List.append_subset] at hV
    obtain ⟨-, hVe, hVt⟩ := hV
    have hdt := stmt_declares ctx whenTrue htp ht
    have hquiet := (hdt.keeps htn).quiet hw
    have hs' := (expr_keeps ctx condition he).scopes.trans hs
    refine ⟨hseen, ?_, hdt.name.trans htn, ?_⟩
    · exact expr_fits ctx hc.settled condition hep he hs hquiet hVe
    · exact stmt_fits ctx hc whenTrue htp ht hs' hw hVt
  | .branch condition whenTrue (some whenFalse), hp, path, b, w, w', h, hs, hw, hV => by
    have hseen := stmt_seen h hs hV
    simp only [stmt, bind_eq_ok_iff, pure_eq_ok_iff] at h
    obtain ⟨_, _, he, _, _, ht, _, _, hf, rfl, rfl⟩ := h
    obtain ⟨hep, ⟨htn, htp⟩, hfn, hfp⟩ := hp
    simp only [stmtVisits, after_of_ok he, after_of_ok ht, List.append_subset] at hV
    obtain ⟨-, hVe, hVt, hVf⟩ := hV
    have hdt := stmt_declares ctx whenTrue htp ht
    have hdf := stmt_declares ctx whenFalse hfp hf
    have hs₁ := (expr_keeps ctx condition he).scopes.trans hs
    have hs₂ := (hdt.keeps htn).scopes.trans hs₁
    have hquiet := (hdf.keeps hfn).quiet hw
    refine ⟨hseen, ?_, ⟨hdt.name.trans htn, ?_⟩, hdf.name.trans hfn, ?_⟩
    · exact expr_fits ctx hc.settled condition hep he hs ((hdt.keeps htn).quiet hquiet) hVe
    · exact stmt_fits ctx hc whenTrue htp ht hs₁ hquiet hVt
    · exact stmt_fits ctx hc whenFalse hfp hf hs₂ hw hVf
  | .print e, hp, path, b, w, w', h, hs, hw, hV => by
    have hseen := stmt_seen h hs hV
    simp only [stmt, bind_eq_ok_iff, pure_eq_ok_iff] at h
    obtain ⟨_, _, he, rfl, rfl⟩ := h
    simp only [stmtVisits, List.append_subset] at hV
    exact ⟨hseen, expr_fits ctx hc.settled e hp he hs hw hV.2⟩
  | .giveBack keyword value, hp, path, b, w, w', h, hs, hw, hV => by
    have hseen := stmt_seen h hs hV
    simp only [stmt, bind_eq_ok_iff, pure_eq_ok_iff] at h
    obtain ⟨_, _, hr, _, _, he, rfl, rfl⟩ := h
    simp only [stmtVisits, after_of_ok hr, List.append_subset] at hV
    have hk := keeps_checkReturn hr
    exact ⟨hseen, expr?_fits hc.settled hp he (hk.scopes.trans hs) hw hV.2⟩
  | .assign name value _, hp, path, b, w, w', h, hs, hw, hV => by
    have hseen := stmt_seen h hs hV
    simp only [stmt] at h
    simp only [stmtVisits, List.append_subset] at hV
    exact assign_fits hc hp h hs hw hV.2 hseen
  | .loop condition body, hp, path, b, w, w', h, hs, hw, hV => by
    have hseen := stmt_seen h hs hV
    simp only [stmt, bind_eq_ok_iff, pure_eq_ok_iff] at h
    obtain ⟨_, _, he, _, _, hb, rfl, rfl⟩ := h
    obtain ⟨hep, hbn, hbp⟩ := hp
    simp only [stmtVisits, after_of_ok he, List.append_subset] at hV
    obtain ⟨-, hVe, hVb⟩ := hV
    have hdb := stmt_declares ctx body hbp hb
    have hquiet := (hdb.keeps hbn).quiet hw
    have hs' := (expr_keeps ctx condition he).scopes.trans hs
    refine ⟨hseen, ?_, hdb.name.trans hbn, ?_⟩
    · exact expr_fits ctx hc.settled condition hep he hs hquiet hVe
    · exact stmt_fits ctx hc body hbp hb hs' hw hVb
  | .unknown, hp, path, b, w, w', h, hs, hw, hV => by
    simp only [stmt] at h
    exact absurd h throw_ne_ok

/-- Statements bound without a report fit, each in the scopes that those before it leave behind. -/
theorem stmts_fit {V : List Visit} {scopes : List Scope} (ctx : Context) (hc : Complete ctx.owner scopes) :
    (ss : List (Stmt Unit)) → Stmt.PlainAll ss → ∀ {path : Path} {i : Nat} {bs : List (Stmt Distance)}
      {w w' : Walk}, stmts ctx ss w = .ok bs w' → w.scopes = scopes → w'.reports = [] →
      stmtsVisits ctx path i ss w ⊆ V → StmtsFit V path i scopes bs
  | [], hp, path, i, bs, w, w', h, hs, hw, hV => by
    simp only [stmts, pure_eq_ok_iff] at h
    obtain ⟨rfl, -⟩ := h
    trivial
  | s :: ss, hp, path, i, bs, w, w', h, hs, hw, hV => by
    simp only [stmts, bind_eq_ok_iff, pure_eq_ok_iff] at h
    obtain ⟨b, _, hb, _, _, hbs, rfl, rfl⟩ := h
    simp only [stmtsVisits, after_of_ok hb, List.append_subset] at hV
    have hd := stmt_declares ctx s hp.1 hb
    have hquiet := List.prefix_nil.1 (hw ▸ (stmts_keepsOuter ctx ss hp.2 hbs).reports)
    constructor
    · exact stmt_fits ctx hc s hp.1 hb hs hquiet hV.1
    · exact stmts_fit ctx (hc.declared hp.1 hd) ss hp.2 hbs (by rw [hd.scopes, hs]) hw hV.2

/-- A routine bound without a report fits the scopes in which it was walked. -/
theorem routine_fits {V : List Visit} {scopes : List Scope} (ctx : Context) (hc : Complete ctx.owner scopes) :
    (r : Routine Unit) → r.Plain → ∀ {path : Path} {r' : Routine Distance} {w w' : Walk},
      routine ctx r w = .ok r' w' → w.scopes = scopes → w'.reports = [] → routineVisits ctx path r w ⊆ V →
      RoutineFits V path scopes r'
  | .mk name params body returnType, hp, path, r', w, w', h, hs, hw, hV => by
    simp only [routine, bind_eq_ok_iff, pure_eq_ok_iff] at h
    obtain ⟨_, _, hin, rfl, rfl⟩ := h
    obtain ⟨inner, hbody, rfl⟩ := ok_of_inScope hin
    simp only [routineVisits] at hV
    exact ⟨hp.1, stmts_fit ctx (hc.params hp.1) body hp.2 hbody (congrArg (List.cons _) hs) hw hV⟩

/-- Methods bound without a report fit the scopes in which they were walked. -/
theorem routines_fit {V : List Visit} {scopes : List Scope} (ctx : Context) (hc : Complete ctx.owner scopes) :
    (rs : List (Routine Unit)) → Routine.PlainAll rs → ∀ {path : Path} {i : Nat} {rs' : List (Routine Distance)}
      {w w' : Walk}, routines ctx rs w = .ok rs' w' → w.scopes = scopes → w'.reports = [] →
      routinesVisits ctx path i rs w ⊆ V → RoutinesFit V path i scopes rs'
  | [], hp, path, i, rs', w, w', h, hs, hw, hV => by
    simp only [routines, pure_eq_ok_iff] at h
    obtain ⟨rfl, -⟩ := h
    trivial
  | r :: rs, hp, path, i, rs', w, w', h, hs, hw, hV => by
    simp only [routines, bind_eq_ok_iff, pure_eq_ok_iff] at h
    obtain ⟨_, _, hr, _, _, hrs, rfl, rfl⟩ := h
    simp only [routinesVisits, after_of_ok hr, List.append_subset] at hV
    have hk := (routine_keeps _ r hp.1 hr).1
    have hquiet := (routines_keep ctx rs hp.2 hrs).quiet hw
    constructor
    · exact routine_fits { ctx with body := methodBody r } hc r hp.1 hr hs hquiet hV.1
    · exact routines_fit ctx hc rs hp.2 hrs (hk.scopes.trans hs) hw hV.2

end

/-- **Distances fit.**  A plain program whose names are bound without a report has distances that fit the
scopes in which its nodes were visited. -/
theorem program_fits {V : List Visit} {number : Nat} {known : List String} {statements : List (Stmt Unit)}
    {bound : List (Stmt Distance)} (hp : Stmt.PlainAll statements)
    (h : program known statements = ⟨.ok bound, []⟩) (hV : programVisits number known statements ⊆ V) :
    StmtsFit V [number] 0 [] bound := by
  unfold program at h
  split at h
  · next bs w hbs =>
    simp only [Outcome.mk.injEq, Except.ok.injEq] at h
    obtain ⟨rfl, hw⟩ := h
    have hc : Complete .noClass [] := ⟨trivial, fun scope hscope => nomatch hscope⟩
    exact stmts_fit (.top (globalNames known statements)) hc statements hp hbs rfl hw hV
  · simp at h

end Offside.Binding
