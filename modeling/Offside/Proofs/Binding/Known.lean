import Mathlib.Data.List.Forall2
import Offside.Proofs.Binding.Pieces

/-!
# More names that are known

Two walks over one program, of which the second one knows more global names.  A name that only the second one
knows is assigned where the first one declares it, so the two leave different scopes behind; but the second
walk reports all that the first one does, except that a name which it knows is never read too early, and every
other name is bound to the same place.

* `Binding.Scope.Agrees`, `Binding.Follows` — what the two walks have in common at every place;
* `Binding.Thinned` — the reports of the second walk are those of the first, less own initializers;
* `Binding.stmtsHiding` — a bound program without the places of some names, in which the walks agree;
* `Binding.stmt_follows` and its companions — the walks go alike through every tree;
* `Binding.program_thinned` — the reports of a whole program;
* `Binding.program_of_known` — its reports and its places, in terms of the names that are known beforehand.
-/

set_option autoImplicit false

namespace Offside.Binding

open Step (Pairs)

/-- The names that are global in `G'` and not in `G`. -/
def Extra (G G' : List String) (name : String) : Prop :=
  name ∈ G' ∧ name ∉ G

/-! ## Reports -/

/-- The second list is the first one without the reports that a name is read in its own initializer, for names
that are global in `G'` and not in `G`; no name that is global in `G'` is left in such a report. -/
inductive Thinned (G G' : List String) : List Report → List Report → Prop
  | nil : Thinned G G' [] []
  | keep {rs rs' : List Report} (t : Token) (problem : Problem)
      (hname : problem = .ownInitializer → t.lexeme ∉ G') (h : Thinned G G' rs rs') :
      Thinned G G' (rs ++ [Report.atToken t problem]) (rs' ++ [Report.atToken t problem])
  | drop {rs rs' : List Report} (t : Token) (hname : Extra G G' t.lexeme) (h : Thinned G G' rs rs') :
      Thinned G G' (rs ++ [Report.atToken t .ownInitializer]) rs'

namespace Thinned

variable {G G' : List String} {rs rs' : List Report} {r : Report}

/-- What is in the second list was kept. -/
theorem kept (h : Thinned G G' rs rs') (hr : r ∈ rs') :
    r ∈ rs ∧ ∃ t problem, r = Report.atToken t problem ∧ (problem = .ownInitializer → t.lexeme ∉ G') := by
  induction h with
  | nil => cases hr
  | keep t problem hname _ ih =>
    rcases List.mem_append.1 hr with hr | hr
    · exact ⟨List.mem_append_left _ (ih hr).1, (ih hr).2⟩
    · exact ⟨List.mem_append_right _ hr, t, problem, List.mem_singleton.1 hr, hname⟩
  | drop t _ _ ih => exact ⟨List.mem_append_left _ (ih hr).1, (ih hr).2⟩

/-- What is not in the second list was dropped. -/
theorem dropped (h : Thinned G G' rs rs') (hr : r ∈ rs) :
    r ∈ rs' ∨ ∃ t, Extra G G' t.lexeme ∧ r = Report.atToken t .ownInitializer := by
  induction h with
  | nil => cases hr
  | keep t problem _ _ ih =>
    rcases List.mem_append.1 hr with hr | hr
    · exact (ih hr).imp_left (List.mem_append_left _)
    · exact Or.inl (List.mem_append_right _ hr)
  | drop t hname _ ih =>
    rcases List.mem_append.1 hr with hr | hr
    · exact ih hr
    · exact Or.inr ⟨t, hname, List.mem_singleton.1 hr⟩

end Thinned

/-! ## Bound trees without the places of some names -/

section Hiding

variable (hidden : String → Bool)

/-- The place of a name, unless the name is hidden. -/
def siteHiding (name : String) (site : Distance) : Distance :=
  if hidden name then none else site

mutual

/-- The expression without the places of hidden names. -/
def exprHiding : Expr Distance → Expr Distance
  | .literal value => .literal value
  | .group inner => .group (exprHiding inner)
  | .unary operator operand => .unary operator (exprHiding operand)
  | .binary left operator right => .binary (exprHiding left) operator (exprHiding right)
  | .logical left operator right => .logical (exprHiding left) operator (exprHiding right)
  | .name token site => .name token (siteHiding hidden token.lexeme site)
  | .setField object field value => .setField (exprHiding object) field (exprHiding value)
  | .getField object field => .getField (exprHiding object) field
  | .call callee paren arguments => .call (exprHiding callee) paren (exprsHiding arguments)
  | .thisRef keyword site => .thisRef keyword (siteHiding hidden "this" site)
  | .superRef keyword method site => .superRef keyword method (siteHiding hidden "super" site)
  | .unknown => .unknown

/-- The same of several expressions. -/
def exprsHiding : List (Expr Distance) → List (Expr Distance)
  | [] => []
  | e :: es => exprHiding e :: exprsHiding es

end

/-- The same of an expression that may be absent. -/
def expr?Hiding : Option (Expr Distance) → Option (Expr Distance)
  | none => none
  | some e => some (exprHiding hidden e)

/-- The superclass without its place, if its name is hidden. -/
def superclassHiding : Option (Token × Distance) → Option (Token × Distance)
  | none => none
  | some (t, site) => some (t, siteHiding hidden t.lexeme site)

mutual

/-- The statement without the places of hidden names. -/
def stmtHiding : Stmt Distance → Stmt Distance
  | .block body => .block (stmtsHiding body)
  | .define r => .define (routineHiding r)
  | .classDef name parent methods => .classDef name (superclassHiding hidden parent) (routinesHiding methods)
  | .evaluate e => .evaluate (exprHiding hidden e)
  | .branch condition whenTrue none => .branch (exprHiding hidden condition) (stmtHiding whenTrue) none
  | .branch condition whenTrue (some whenFalse) =>
    .branch (exprHiding hidden condition) (stmtHiding whenTrue) (some (stmtHiding whenFalse))
  | .print e => .print (exprHiding hidden e)
  | .giveBack keyword value => .giveBack keyword (expr?Hiding hidden value)
  | .assign name value site => .assign name (expr?Hiding hidden value) (siteHiding hidden name.lexeme site)
  | .loop condition body => .loop (exprHiding hidden condition) (stmtHiding body)
  | .unknown => .unknown

/-- The same of several statements. -/
def stmtsHiding : List (Stmt Distance) → List (Stmt Distance)
  | [] => []
  | s :: ss => stmtHiding s :: stmtsHiding ss

/-- The same of a routine. -/
def routineHiding : Routine Distance → Routine Distance
  | .mk name params body returnType => .mk name params (stmtsHiding body) returnType

/-- The same of several routines. -/
def routinesHiding : List (Routine Distance) → List (Routine Distance)
  | [] => []
  | r :: rs => routineHiding r :: routinesHiding rs

end

end Hiding

/-- Two values are the same once something is left out of both. -/
abbrev SameBy {α : Type} (hide : α → α) (a b : α) : Prop :=
  hide a = hide b

/-! ## Scopes -/

/-- The scopes agree on every name but those that are global in `G'` alone; no name that is global in `G'` is
pending in the second one. -/
structure Scope.Agrees (G G' : List String) (scope scope' : Scope) : Prop where
  same : ∀ name, ¬ Extra G G' name → scope'.lookup name = scope.lookup name
  ready : ∀ name ∈ G', scope'.lookup name ≠ some false

/-- What two walks have in common, for which the names in `G` and in `G'` are global. -/
structure Follows (G G' : List String) (w w' : Walk) : Prop where
  scopes : List.Forall₂ (Scope.Agrees G G') w.scopes w'.scopes
  reports : Thinned G G' w.reports w'.reports

/-- Two steps of such walks go alike, and yield values that are the same in some sense. -/
def GoAlike (G G' : List String) {α : Type} (same : α → α → Prop) (r r' : EStateM.Result Unknown Walk α) : Prop :=
  Pairs (fun a w b w' => same a b ∧ Follows G G' w w') (Follows G G') r r'

section Scopes

variable {G G' : List String} {scopes scopes' : List Scope}

theorem Scope.agrees_refl {scope : Scope} (h : ∀ name, scope.lookup name ≠ some false) :
    Scope.Agrees G G' scope scope :=
  ⟨fun _ _ => rfl, fun name _ => h name⟩

theorem agrees_tail (h : List.Forall₂ (Scope.Agrees G G') scopes scopes') :
    List.Forall₂ (Scope.Agrees G G') scopes.tail scopes'.tail := by
  cases h with
  | nil => exact .nil
  | cons _ houter => exact houter

/-- A name may be entered on both sides, pending only if it is not in `G'`. -/
theorem agrees_enter {name : String} {ready : Bool} (hready : scopes ≠ [] → name ∈ G' → ready = true)
    (h : List.Forall₂ (Scope.Agrees G G') scopes scopes') :
    List.Forall₂ (Scope.Agrees G G') (enter name ready scopes) (enter name ready scopes') := by
  cases h with
  | nil => exact .nil
  | @cons scope scope' outer outer' hscope houter =>
    refine .cons ⟨fun other hother => ?_, fun other hother => ?_⟩ houter
    · rw [List.lookup_cons, List.lookup_cons, hscope.same other hother]
    · rw [List.lookup_cons]
      cases hb : other == name with
      | true =>
        rw [beq_iff_eq] at hb
        subst hb
        simp [hready (List.cons_ne_nil _ _) hother]
      | false => exact hscope.ready other hother

/-- A name that is global in `G'` alone may be entered on the first side alone. -/
theorem agrees_enter_left {name : String} (ready : Bool) (hname : Extra G G' name)
    (h : List.Forall₂ (Scope.Agrees G G') scopes scopes') :
    List.Forall₂ (Scope.Agrees G G') (enter name ready scopes) scopes' := by
  cases h with
  | nil => exact .nil
  | @cons scope scope' outer outer' hscope houter =>
    refine .cons ⟨fun other hother => ?_, hscope.ready⟩ houter
    have hne : (other == name) = false := by
      rw [beq_eq_false_iff_ne]
      rintro rfl
      exact hother hname
    rw [List.lookup_cons, hne]
    exact hscope.same other hother

theorem declares_eq_of_lookup_eq {scope scope' : Scope} {name : String}
    (h : scope'.lookup name = scope.lookup name) : scope'.declares name = scope.declares name := by
  rw [Bool.eq_iff_iff, declares_iff, declares_iff, h]

theorem distance?_of_agrees {name : String} (hname : ¬ Extra G G' name)
    (h : List.Forall₂ (Scope.Agrees G G') scopes scopes') : distance? scopes' name = distance? scopes name := by
  induction h with
  | nil => rfl
  | cons hscope _ ih =>
    have hdeclares := declares_eq_of_lookup_eq (hscope.same name hname)
    simp only [distance?, List.findIdx?_cons, hdeclares] at ih ⊢
    rw [ih]

theorem isPending_of_agrees {name : String} (hname : ¬ Extra G G' name)
    (h : List.Forall₂ (Scope.Agrees G G') scopes scopes') : isPending scopes' name = isPending scopes name := by
  cases h with
  | nil => rfl
  | cons hscope _ => simp only [isPending, List.head?_cons, Option.bind_some, hscope.same name hname]

theorem not_isPending_of_agrees {name : String} (hname : name ∈ G')
    (h : List.Forall₂ (Scope.Agrees G G') scopes scopes') : isPending scopes' name = false := by
  cases h with
  | nil => rfl
  | cons hscope _ => exact beq_eq_false_iff_ne.2 (hscope.ready name hname)

end Scopes

/-! ## Steps -/

section Steps

variable {G G' : List String} {hidden : String → Bool} {w w' : Walk} {α β : Type}

theorem Follows.pure {same : α → α → Prop} (h : Follows G G' w w') {a b : α} (hab : same a b) :
    GoAlike G G' same ((pure a : Binder α) w) ((pure b : Binder α) w') :=
  ⟨hab, h⟩

theorem GoAlike.bind {same : α → α → Prop} {next : β → β → Prop} {p q : Binder α} {f g : α → Binder β}
    (h : GoAlike G G' same (p w) (q w'))
    (hf : ∀ a b w₁ w₁', same a b → Follows G G' w₁ w₁' → GoAlike G G' next (f a w₁) (g b w₁')) :
    GoAlike G G' next ((p >>= f) w) ((q >>= g) w') :=
  Pairs.bind h fun a w₁ b w₁' h₁ => hf a b w₁ w₁' h₁.1 h₁.2

theorem Follows.complain (h : Follows G G' w w') (t : Token) {problem : Problem}
    (hname : problem = .ownInitializer → t.lexeme ∉ G') :
    GoAlike G G' Eq (Binding.complain t problem w) (Binding.complain t problem w') :=
  ⟨rfl, h.scopes, .keep t problem hname h.reports⟩

/-- A name that the second walk does not take for a global one in addition is found in the same place. -/
theorem sameBy_distance? {scopes scopes' : List Scope} {name : String}
    (hhidden : ∀ name, Extra G G' name → hidden name = true)
    (h : List.Forall₂ (Scope.Agrees G G') scopes scopes') :
    SameBy (siteHiding hidden name) (distance? scopes name) (distance? scopes' name) := by
  by_cases hname : Extra G G' name
  · simp only [SameBy, siteHiding, hhidden name hname, if_true]
  · rw [SameBy, distance?_of_agrees hname h]

theorem Follows.locate (h : Follows G G' w w') (hhidden : ∀ name, Extra G G' name → hidden name = true)
    (name : String) :
    GoAlike G G' (SameBy (siteHiding hidden name)) (Binding.locate name w) (Binding.locate name w') :=
  ⟨sameBy_distance? hhidden h.scopes, h⟩

/-- What a variable that is read comes to. -/
theorem locateVariable_apply (t : Token) (w : Walk) : Binding.locateVariable t w =
    (if isPending w.scopes t.lexeme then Binding.complain t .ownInitializer >>= fun _ => Binding.locate t.lexeme
      else Binding.locate t.lexeme) w :=
  rfl

/-- A variable that is read: the second walk may be silent where the first one finds its name pending. -/
theorem Follows.locateVariable (h : Follows G G' w w') (hhidden : ∀ name, Extra G G' name → hidden name = true)
    (t : Token) :
    GoAlike G G' (SameBy (siteHiding hidden t.lexeme)) (Binding.locateVariable t w)
      (Binding.locateVariable t w') := by
  rw [locateVariable_apply, locateVariable_apply]
  by_cases hglobal : t.lexeme ∈ G'
  · rw [not_isPending_of_agrees hglobal h.scopes]
    cases hpending : isPending w.scopes t.lexeme with
    | false => exact h.locate hhidden t.lexeme
    | true =>
      -- a name that is global on both sides is pending on neither
      have hname : Extra G G' t.lexeme := by
        by_contra hname
        rw [← isPending_of_agrees hname h.scopes, not_isPending_of_agrees hglobal h.scopes] at hpending
        cases hpending
      exact ⟨sameBy_distance? hhidden h.scopes, h.scopes, .drop t hname h.reports⟩
  · rw [isPending_of_agrees (fun hname => hglobal hname.1) h.scopes]
    cases isPending w.scopes t.lexeme with
    | false => exact h.locate hhidden t.lexeme
    | true =>
      exact GoAlike.bind (h.complain t fun _ => hglobal) fun _ _ _ _ _ h₁ => h₁.locate hhidden t.lexeme

theorem Follows.inScope {scope : Scope} {same : α → α → Prop} {p q : Binder α} (h : Follows G G' w w')
    (hready : ∀ name, scope.lookup name ≠ some false)
    (hstep : ∀ w₁ w₁', Follows G G' w₁ w₁' → GoAlike G G' same (p w₁) (q w₁')) :
    GoAlike G G' same (Binding.inScope scope p w) (Binding.inScope scope q w') := by
  have hopen : Follows G G' (w.within scope) (w'.within scope) :=
    ⟨.cons (Scope.agrees_refl hready) h.scopes, h.reports⟩
  have hopened : GoAlike G G' Eq ((modify fun w => w.within scope : Binder Unit) w)
      ((modify fun w => w.within scope : Binder Unit) w') := ⟨rfl, hopen⟩
  refine GoAlike.bind hopened fun _ _ w₁ w₁' _ h₁ => ?_
  refine GoAlike.bind (hstep w₁ w₁' h₁) fun a b w₂ w₂' hab h₂ => ?_
  have hclose : Follows G G' { w₂ with scopes := w₂.scopes.tail } { w₂' with scopes := w₂'.scopes.tail } :=
    ⟨agrees_tail h₂.scopes, h₂.reports⟩
  exact ⟨hab, hclose⟩

theorem Follows.declare {name : String} {ready : Bool} (h : Follows G G' w w')
    (hready : w.scopes ≠ [] → name ∈ G' → ready = true) :
    GoAlike G G' Eq (Binding.declare name ready w) (Binding.declare name ready w') :=
  ⟨rfl, agrees_enter hready h.scopes, h.reports⟩

end Steps

/-! ## Expressions -/

section Expressions

variable {G G' : List String} {hidden : String → Bool}

theorem Follows.checkSuper {w w' : Walk} (h : Follows G G' w w') (ctx : Context) (keyword : Token) :
    GoAlike G G' Eq (Binding.checkSuper ctx keyword w) (Binding.checkSuper ctx keyword w') := by
  unfold Binding.checkSuper
  cases ctx.owner with
  | noClass | baseClass => exact h.complain keyword nofun
  | subclass => exact h.pure rfl

mutual

theorem expr_follows (hhidden : ∀ name, Extra G G' name → hidden name = true) (ctx : Context) :
    (e : Expr Unit) → ∀ {w w' : Walk}, Follows G G' w w' →
      GoAlike G G' (SameBy (exprHiding hidden)) (expr ctx e w) (expr ctx e w')
  | .literal value, w, w', h => h.pure rfl
  | .group inner, w, w', h => by
    simp only [expr]
    refine GoAlike.bind (expr_follows hhidden ctx inner h) fun _ _ _ _ hinner h₁ => h₁.pure ?_
    simp only [SameBy, exprHiding, hinner]
  | .unary operator operand, w, w', h => by
    simp only [expr]
    refine GoAlike.bind (expr_follows hhidden ctx operand h) fun _ _ _ _ hoperand h₁ => h₁.pure ?_
    simp only [SameBy, exprHiding, hoperand]
  | .binary left operator right, w, w', h => by
    simp only [expr]
    refine GoAlike.bind (expr_follows hhidden ctx left h) fun _ _ _ _ hleft h₁ => ?_
    refine GoAlike.bind (expr_follows hhidden ctx right h₁) fun _ _ _ _ hright h₂ => h₂.pure ?_
    simp only [SameBy, exprHiding, hleft, hright]
  | .logical left operator right, w, w', h => by
    simp only [expr]
    refine GoAlike.bind (expr_follows hhidden ctx left h) fun _ _ _ _ hleft h₁ => ?_
    refine GoAlike.bind (expr_follows hhidden ctx right h₁) fun _ _ _ _ hright h₂ => h₂.pure ?_
    simp only [SameBy, exprHiding, hleft, hright]
  | .name token _, w, w', h => by
    simp only [expr]
    refine GoAlike.bind (h.locateVariable hhidden token) fun _ _ _ _ hsite h₁ => h₁.pure ?_
    simp only [SameBy, exprHiding, hsite]
  | .setField object field value, w, w', h => by
    simp only [expr]
    refine GoAlike.bind (expr_follows hhidden ctx value h) fun _ _ _ _ hvalue h₁ => ?_
    refine GoAlike.bind (expr_follows hhidden ctx object h₁) fun _ _ _ _ hobject h₂ => h₂.pure ?_
    simp only [SameBy, exprHiding, hvalue, hobject]
  | .getField object field, w, w', h => by
    simp only [expr]
    refine GoAlike.bind (expr_follows hhidden ctx object h) fun _ _ _ _ hobject h₁ => h₁.pure ?_
    simp only [SameBy, exprHiding, hobject]
  | .call callee paren arguments, w, w', h => by
    simp only [expr]
    refine GoAlike.bind (expr_follows hhidden ctx callee h) fun _ _ _ _ hcallee h₁ => ?_
    refine GoAlike.bind (exprs_follow hhidden ctx arguments h₁) fun _ _ _ _ harguments h₂ => h₂.pure ?_
    simp only [SameBy, exprHiding, hcallee, harguments]
  | .thisRef keyword _, w, w', h => by
    simp only [expr]
    split
    · exact GoAlike.bind (h.complain keyword nofun) fun _ _ _ _ _ h₁ => h₁.pure rfl
    · refine GoAlike.bind (h.locate hhidden "this") fun _ _ _ _ hsite h₁ => h₁.pure ?_
      simp only [SameBy, exprHiding, hsite]
  | .superRef keyword method _, w, w', h => by
    simp only [expr]
    refine GoAlike.bind (h.checkSuper ctx keyword) fun _ _ _ _ _ h₁ => ?_
    refine GoAlike.bind (h₁.locate hhidden "super") fun _ _ _ _ hsite h₂ => h₂.pure ?_
    simp only [SameBy, exprHiding, hsite]
  | .unknown, w, w', h => ⟨rfl, h⟩

theorem exprs_follow (hhidden : ∀ name, Extra G G' name → hidden name = true) (ctx : Context) :
    (es : List (Expr Unit)) → ∀ {w w' : Walk}, Follows G G' w w' →
      GoAlike G G' (SameBy (exprsHiding hidden)) (exprs ctx es w) (exprs ctx es w')
  | [], w, w', h => h.pure rfl
  | e :: es, w, w', h => by
    simp only [exprs]
    refine GoAlike.bind (expr_follows hhidden ctx e h) fun _ _ _ _ hfirst h₁ => ?_
    refine GoAlike.bind (exprs_follow hhidden ctx es h₁) fun _ _ _ _ hmore h₂ => h₂.pure ?_
    simp only [SameBy, exprsHiding, hfirst, hmore]

end

theorem expr?_follows (hhidden : ∀ name, Extra G G' name → hidden name = true) (ctx : Context)
    (e : Option (Expr Unit)) {w w' : Walk} (h : Follows G G' w w') :
    GoAlike G G' (SameBy (expr?Hiding hidden)) (expr? ctx e w) (expr? ctx e w') := by
  cases e with
  | none => exact h.pure rfl
  | some e =>
    refine GoAlike.bind (expr_follows hhidden ctx e h) fun _ _ _ _ he h₁ => h₁.pure ?_
    simp only [SameBy, expr?Hiding, he]

end Expressions

/-! ## Statements -/

section Statements

variable {G G' : List String} {hidden : String → Bool} {w w' : Walk}

/-- Reports a superclass that is the class itself. -/
def compareParent (name parent : Token) : Binder Unit :=
  if parent.lexeme == name.lexeme then complain parent .inheritsFromItself else pure ()

/-- A superclass is compared with the class, and then looked for. -/
theorem superclass_some (name : Token) (p : Token × Unit) : superclass name (some p) =
    compareParent name p.1 >>= fun _ => locateVariable p.1 >>= fun d => pure (some (p.1, d)) := by
  funext w
  simp only [superclass, compareParent]
  split <;> rfl

theorem Follows.superclass (h : Follows G G' w w') (hhidden : ∀ name, Extra G G' name → hidden name = true)
    (name : Token) (parent : Option (Token × Unit)) :
    GoAlike G G' (SameBy (superclassHiding hidden)) (Binding.superclass name parent w)
      (Binding.superclass name parent w') := by
  cases parent with
  | none => exact h.pure rfl
  | some p =>
    have hcompared : GoAlike G G' Eq (compareParent name p.1 w) (compareParent name p.1 w') := by
      unfold compareParent
      split
      · exact h.complain p.1 fun hsame => by cases hsame
      · exact h.pure rfl
    rw [superclass_some]
    refine GoAlike.bind hcompared fun _ _ _ _ _ h₁ => ?_
    refine GoAlike.bind (h₁.locateVariable hhidden p.1) fun _ _ _ _ hsite h₂ => h₂.pure ?_
    simp only [SameBy, superclassHiding, hsite]

theorem lookup_single (name other : String) : List.lookup other [(name, true)] ≠ some false := by
  rw [List.lookup_cons]
  cases other == name <;> simp

theorem Follows.inClass {α : Type} {derived : Bool} {same : α → α → Prop} {p q : Binder α}
    (h : Follows G G' w w')
    (hstep : ∀ w₁ w₁', Follows G G' w₁ w₁' → GoAlike G G' same (p w₁) (q w₁')) :
    GoAlike G G' same (Binding.inClass derived p w) (Binding.inClass derived q w') := by
  have hthis : ∀ w₁ w₁', Follows G G' w₁ w₁' → GoAlike G G' same
      (Binding.inScope [("this", true)] p w₁) (Binding.inScope [("this", true)] q w₁') :=
    fun _ _ h₁ => h₁.inScope (lookup_single "this") hstep
  cases derived with
  | false => exact hthis w w' h
  | true => exact h.inScope (lookup_single "super") hthis

theorem Follows.checkReturn (h : Follows G G' w w') (ctx : Context) (keyword : Token) (hasValue : Bool) :
    GoAlike G G' Eq (Binding.checkReturn ctx keyword hasValue w)
      (Binding.checkReturn ctx keyword hasValue w') := by
  unfold Binding.checkReturn
  split <;> split
  · exact GoAlike.bind (h.complain keyword nofun) fun _ _ _ _ _ h₁ => h₁.complain keyword nofun
  · exact GoAlike.bind (h.complain keyword nofun) fun _ _ _ _ _ h₁ => h₁.pure rfl
  · exact h.complain keyword nofun
  · exact h.pure rfl

theorem assign_apply (ctx : Context) (name : Token) (value : Option (Expr Unit)) (w : Walk) :
    assign ctx name value w =
      (match target? ctx.globals w.scopes name.lexeme with
        | some d => expr? ctx value >>= fun v => pure (.assign name v (some d))
        | none => do
          declare name.lexeme false
          let v ← expr? ctx value
          declare name.lexeme true
          pure (.assign name v none) : Binder (Stmt Distance)) w :=
  rfl

theorem target?_of_agrees {scopes scopes' : List Scope} {name : String}
    (hG : G ⊆ G') (hname : ¬ Extra G G' name) (h : List.Forall₂ (Scope.Agrees G G') scopes scopes') :
    target? G' scopes' name = target? G scopes name := by
  have hcontains : G'.contains name = G.contains name := by
    rw [Bool.eq_iff_iff, List.contains_iff_mem, List.contains_iff_mem]
    exact ⟨fun hmem => by_contra fun hnot => hname ⟨hmem, hnot⟩, fun hmem => hG hmem⟩
  have hempty : scopes'.isEmpty = scopes.isEmpty := by
    cases h <;> rfl
  simp only [target?, distance?_of_agrees hname h, hcontains, hempty, h.length_eq]

/-- Inside some scope a name that is known is never declared. -/
theorem target?_ne_none {G : List String} {scopes : List Scope} {name : String} (hname : name ∈ G)
    (hscopes : scopes ≠ []) : target? G scopes name ≠ none := by
  unfold target?
  split
  · simp
  · simp [hscopes, hname]

theorem sameBy_assign {name : Token} {value value' : Option (Expr Distance)} {site site' : Distance}
    (hvalue : SameBy (expr?Hiding hidden) value value')
    (hsite : SameBy (siteHiding hidden name.lexeme) site site') :
    SameBy (stmtHiding hidden) (.assign name value site) (.assign name value' site') := by
  simp only [SameBy, stmtHiding, hvalue, hsite]

/-- The second walk assigns a name that it knows where the first one may declare it. -/
theorem assign_follows {ctx : Context} {G : List String} (hG : ctx.globals ⊆ G)
    (hhidden : ∀ name, Extra ctx.globals G name → hidden name = true) (name : Token)
    (value : Option (Expr Unit)) (h : Follows ctx.globals G w w') :
    GoAlike ctx.globals G (SameBy (stmtHiding hidden)) (assign ctx name value w)
      (assign { ctx with globals := G } name value w') := by
  rw [assign_apply, assign_apply]
  simp only [expr?_globals]
  have hsame : SameBy (siteHiding hidden name.lexeme) (target? ctx.globals w.scopes name.lexeme)
      (target? G w'.scopes name.lexeme) := by
    by_cases hname : Extra ctx.globals G name.lexeme
    · simp only [SameBy, siteHiding, hhidden _ hname, if_true]
    · rw [SameBy, target?_of_agrees hG hname h.scopes]
  cases hright : target? G w'.scopes name.lexeme with
  | some d' =>
    cases hleft : target? ctx.globals w.scopes name.lexeme with
    | some d =>
      rw [hleft, hright] at hsame
      exact GoAlike.bind (expr?_follows hhidden ctx value h) fun _ _ _ _ hvalue h₁ =>
        h₁.pure (sameBy_assign hvalue hsame)
    | none =>
      rw [hleft, hright] at hsame
      have hname : Extra ctx.globals G name.lexeme := by
        by_contra hnot
        rw [target?_of_agrees hG hnot h.scopes, hleft] at hright
        cases hright
      have hpending : Follows ctx.globals G (w.entering name.lexeme false) w' :=
        ⟨agrees_enter_left false hname h.scopes, h.reports⟩
      have hdeclared : declare name.lexeme false w = .ok () (w.entering name.lexeme false) := rfl
      simp only
      rw [Step.bind_of_ok hdeclared]
      refine GoAlike.bind (expr?_follows hhidden ctx value hpending) fun _ _ w₁ w₁' hvalue h₁ => ?_
      exact ⟨sameBy_assign hvalue hsame, agrees_enter_left true hname h₁.scopes, h₁.reports⟩
  | none =>
    -- The first walk declares the name too, and it is pending on both sides unless no scope is open.
    have hpending : w.scopes ≠ [] → name.lexeme ∉ G := by
      intro hscopes hname
      refine target?_ne_none hname (fun hnil => hscopes ?_) hright
      exact List.forall₂_nil_right_iff.1 (hnil ▸ h.scopes)
    have hleft : target? ctx.globals w.scopes name.lexeme = none := by
      by_cases hname : Extra ctx.globals G name.lexeme
      · by_cases hscopes : w.scopes = []
        · rw [hscopes]
          rfl
        · exact absurd hname.1 (hpending hscopes)
      · rw [← hright, target?_of_agrees hG hname h.scopes]
    rw [hleft]
    refine GoAlike.bind (h.declare fun hscopes hname => absurd hname (hpending hscopes)) fun _ _ w₁ w₁' _ h₁ => ?_
    refine GoAlike.bind (expr?_follows hhidden ctx value h₁) fun _ _ w₂ w₂' hvalue h₂ => ?_
    exact GoAlike.bind (h₂.declare fun _ _ => rfl) fun _ _ _ _ _ h₃ => h₃.pure (sameBy_assign hvalue rfl)

mutual

/-- The walks go alike through a statement. -/
theorem stmt_follows {G : List String} (ctx : Context) (hG : ctx.globals ⊆ G)
    (hhidden : ∀ name, Extra ctx.globals G name → hidden name = true) : (s : Stmt Unit) →
    ∀ {w w' : Walk}, Follows ctx.globals G w w' →
      GoAlike ctx.globals G (SameBy (stmtHiding hidden)) (stmt ctx s w) (stmt { ctx with globals := G } s w')
  | .block body, w, w', h => by
    simp only [stmt]
    refine GoAlike.bind (h.inScope nofun fun _ _ h₁ => stmts_follow ctx hG hhidden body h₁)
      fun _ _ _ _ hbody h₂ => h₂.pure ?_
    simp only [SameBy, stmtHiding, hbody]
  | .define r, w, w', h => by
    simp only [stmt]
    refine GoAlike.bind (h.declare fun _ _ => rfl) fun _ _ _ _ _ h₁ => ?_
    refine GoAlike.bind (routine_follows { ctx with body := .function } hG hhidden r h₁)
      fun _ _ _ _ hroutine h₂ => h₂.pure ?_
    simp only [SameBy, stmtHiding, hroutine]
  | .classDef name parent methods, w, w', h => by
    simp only [stmt]
    refine GoAlike.bind (h.declare fun _ _ => rfl) fun _ _ _ _ _ h₁ => ?_
    refine GoAlike.bind (h₁.superclass hhidden name parent) fun _ _ _ _ hparent h₂ => ?_
    let owner := if parent.isSome then Owner.subclass else .baseClass
    refine GoAlike.bind
      (h₂.inClass fun _ _ h₃ => routines_follow { ctx with owner := owner } hG hhidden methods h₃)
      fun _ _ _ _ hmethods h₄ => h₄.pure ?_
    simp only [SameBy, stmtHiding, hparent, hmethods]
  | .evaluate e, w, w', h => by
    simp only [stmt, expr_globals]
    refine GoAlike.bind (expr_follows hhidden ctx e h) fun _ _ _ _ he h₁ => h₁.pure ?_
    simp only [SameBy, stmtHiding, he]
  | .branch condition whenTrue none, w, w', h => by
    simp only [stmt, expr_globals]
    refine GoAlike.bind (expr_follows hhidden ctx condition h) fun _ _ _ _ hcondition h₁ => ?_
    refine GoAlike.bind (stmt_follows ctx hG hhidden whenTrue h₁) fun _ _ _ _ htrue h₂ => h₂.pure ?_
    simp only [SameBy, stmtHiding, hcondition, htrue]
  | .branch condition whenTrue (some whenFalse), w, w', h => by
    simp only [stmt, expr_globals]
    refine GoAlike.bind (expr_follows hhidden ctx condition h) fun _ _ _ _ hcondition h₁ => ?_
    refine GoAlike.bind (stmt_follows ctx hG hhidden whenTrue h₁) fun _ _ _ _ htrue h₂ => ?_
    refine GoAlike.bind (stmt_follows ctx hG hhidden whenFalse h₂) fun _ _ _ _ hfalse h₃ => h₃.pure ?_
    simp only [SameBy, stmtHiding, hcondition, htrue, hfalse]
  | .print e, w, w', h => by
    simp only [stmt, expr_globals]
    refine GoAlike.bind (expr_follows hhidden ctx e h) fun _ _ _ _ he h₁ => h₁.pure ?_
    simp only [SameBy, stmtHiding, he]
  | .giveBack keyword value, w, w', h => by
    simp only [stmt, expr?_globals]
    refine GoAlike.bind (h.checkReturn ctx keyword value.isSome) fun _ _ _ _ _ h₁ => ?_
    refine GoAlike.bind (expr?_follows hhidden ctx value h₁) fun _ _ _ _ hvalue h₂ => h₂.pure ?_
    simp only [SameBy, stmtHiding, hvalue]
  | .assign name value _, w, w', h => by
    simp only [stmt]
    exact assign_follows hG hhidden name value h
  | .loop condition body, w, w', h => by
    simp only [stmt, expr_globals]
    refine GoAlike.bind (expr_follows hhidden ctx condition h) fun _ _ _ _ hcondition h₁ => ?_
    refine GoAlike.bind (stmt_follows ctx hG hhidden body h₁) fun _ _ _ _ hbody h₂ => h₂.pure ?_
    simp only [SameBy, stmtHiding, hcondition, hbody]
  | .unknown, w, w', h => ⟨rfl, h⟩

theorem stmts_follow {G : List String} (ctx : Context) (hG : ctx.globals ⊆ G)
    (hhidden : ∀ name, Extra ctx.globals G name → hidden name = true) : (ss : List (Stmt Unit)) →
    ∀ {w w' : Walk}, Follows ctx.globals G w w' →
      GoAlike ctx.globals G (SameBy (stmtsHiding hidden)) (stmts ctx ss w) (stmts { ctx with globals := G } ss w')
  | [], w, w', h => h.pure rfl
  | s :: ss, w, w', h => by
    simp only [stmts]
    refine GoAlike.bind (stmt_follows ctx hG hhidden s h) fun _ _ _ _ hfirst h₁ => ?_
    refine GoAlike.bind (stmts_follow ctx hG hhidden ss h₁) fun _ _ _ _ hmore h₂ => h₂.pure ?_
    simp only [SameBy, stmtsHiding, hfirst, hmore]

theorem routine_follows {G : List String} (ctx : Context) (hG : ctx.globals ⊆ G)
    (hhidden : ∀ name, Extra ctx.globals G name → hidden name = true) : (r : Routine Unit) →
    ∀ {w w' : Walk}, Follows ctx.globals G w w' →
      GoAlike ctx.globals G (SameBy (routineHiding hidden)) (routine ctx r w)
        (routine { ctx with globals := G } r w')
  | .mk name params body returnType, w, w', h => by
    simp only [routine]
    refine GoAlike.bind (h.inScope (lookup_paramScope params) fun _ _ h₁ => stmts_follow ctx hG hhidden body h₁)
      fun _ _ _ _ hbody h₂ => h₂.pure ?_
    simp only [SameBy, routineHiding, hbody]

theorem routines_follow {G : List String} (ctx : Context) (hG : ctx.globals ⊆ G)
    (hhidden : ∀ name, Extra ctx.globals G name → hidden name = true) : (rs : List (Routine Unit)) →
    ∀ {w w' : Walk}, Follows ctx.globals G w w' →
      GoAlike ctx.globals G (SameBy (routinesHiding hidden)) (routines ctx rs w)
        (routines { ctx with globals := G } rs w')
  | [], w, w', h => h.pure rfl
  | r :: rs, w, w', h => by
    simp only [routines]
    refine GoAlike.bind (routine_follows { ctx with body := methodBody r } hG hhidden r h)
      fun _ _ _ _ hfirst h₁ => ?_
    refine GoAlike.bind (routines_follow ctx hG hhidden rs h₁) fun _ _ _ _ hmore h₂ => h₂.pure ?_
    simp only [SameBy, routinesHiding, hfirst, hmore]

end

end Statements

/-! ## Programs -/

section Programs

variable {known known' : List String}

/-- A program that is bound twice, the second time with more known names. -/
theorem program_follows {hidden : String → Bool} (hknown : known ⊆ known') (statements : List (Stmt Unit))
    (hhidden : ∀ name, Extra (globalNames known statements) (globalNames known' statements) name →
      hidden name = true) :
    Thinned (globalNames known statements) (globalNames known' statements)
        (program known statements).reports (program known' statements).reports ∧
      (program known statements).result.map (stmtsHiding hidden) =
        (program known' statements).result.map (stmtsHiding hidden) := by
  have hG : globalNames known statements ⊆ globalNames known' statements :=
    List.append_subset.2 ⟨List.Subset.trans hknown (List.subset_append_left _ _), List.subset_append_right _ _⟩
  have hstart : Follows (globalNames known statements) (globalNames known' statements) ⟨[], []⟩ ⟨[], []⟩ :=
    ⟨.nil, .nil⟩
  have hwalk := stmts_follow (.top (globalNames known statements)) hG hhidden statements hstart
  change GoAlike _ _ _ _ (stmts (.top (globalNames known' statements)) statements ⟨[], []⟩) at hwalk
  unfold program
  cases hleft : stmts (.top (globalNames known statements)) statements ⟨[], []⟩ with
  | ok bound w =>
    cases hright : stmts (.top (globalNames known' statements)) statements ⟨[], []⟩ with
    | ok bound' w' =>
      rw [hleft, hright] at hwalk
      exact ⟨hwalk.2.reports, congrArg Except.ok hwalk.1⟩
    | error e' w' =>
      rw [hleft, hright] at hwalk
      exact absurd hwalk id
  | error e w =>
    cases hright : stmts (.top (globalNames known' statements)) statements ⟨[], []⟩ with
    | ok bound' w' =>
      rw [hleft, hright] at hwalk
      exact absurd hwalk id
    | error e' w' =>
      rw [hleft, hright] at hwalk
      exact ⟨hwalk.2.reports, congrArg Except.error hwalk.1⟩

/-- Whether a name is known to the second list alone. -/
def newlyKnown (known known' : List String) (name : String) : Bool :=
  known'.contains name && !known.contains name

theorem newlyKnown_of_extra {statements : List (Stmt Unit)} {name : String}
    (h : Extra (globalNames known statements) (globalNames known' statements) name) :
    newlyKnown known known' name = true := by
  have hnot : name ∉ known := fun hmem => h.2 (List.mem_append_left _ hmem)
  have hmem : name ∈ known' :=
    (List.mem_append.1 h.1).resolve_right fun htop => h.2 (List.mem_append_right _ htop)
  simp [newlyKnown, hmem, hnot]

/-- **Names that are known only take reports away.**  A program that is bound with more known names is reported
on as before, less the reports of names that are read in their own initializer and are global only
because they are known. -/
theorem program_thinned (hknown : known ⊆ known') (statements : List (Stmt Unit)) :
    Thinned (globalNames known statements) (globalNames known' statements)
      (program known statements).reports (program known' statements).reports :=
  (program_follows hknown statements fun _ hname => newlyKnown_of_extra hname).1

/-- Whether a complaint is that a newly known name is read in its own initializer. -/
def silenced (known known' : List String) (complaint : Token × Problem) : Bool :=
  complaint.2 == .ownInitializer && newlyKnown known known' complaint.1.lexeme

/-- The report of a complaint. -/
def reportOf (complaint : Token × Problem) : Report :=
  Report.atToken complaint.1 complaint.2

/-- A list that is thinned out loses just the complaints that newly known names silence. -/
theorem Thinned.exists_complaints {statements : List (Stmt Unit)} {rs rs' : List Report}
    (h : Thinned (globalNames known statements) (globalNames known' statements) rs rs') :
    ∃ complaints : List (Token × Problem), rs = complaints.map reportOf ∧
      rs' = (complaints.filter fun c => !silenced known known' c).map reportOf := by
  induction h with
  | nil => exact ⟨[], rfl, rfl⟩
  | @keep rs rs' t problem hname _ ih =>
    obtain ⟨complaints, hleft, hright⟩ := ih
    refine ⟨complaints ++ [(t, problem)], ?_, ?_⟩
    · rw [List.map_append, ← hleft]
      rfl
    · have hkept : silenced known known' (t, problem) = false := by
        by_contra hsilenced
        simp only [silenced, newlyKnown, Bool.not_eq_false, Bool.and_eq_true, beq_iff_eq,
          List.contains_iff_mem] at hsilenced
        exact hname hsilenced.1 (List.mem_append_left _ hsilenced.2.1)
      simp only [List.filter_append, List.map_append, ← hright, List.filter_cons, hkept]
      rfl
  | @drop rs rs' t hname _ ih =>
    obtain ⟨complaints, hleft, hright⟩ := ih
    refine ⟨complaints ++ [(t, .ownInitializer)], ?_, ?_⟩
    · rw [List.map_append, ← hleft]
      rfl
    · have hdropped : silenced known known' (t, .ownInitializer) = true := by
        simp only [silenced, newlyKnown_of_extra hname, beq_self_eq_true, Bool.and_true]
      simp only [List.filter_append, List.map_append, ← hright, List.filter_cons, hdropped]
      exact (List.append_nil _).symm

/-- **Known names silence own initializers and do nothing else.**  With more known names, the reports are those
from before, in their order, less the complaints that a newly known name is read in its own initializer;
and every other name is bound to the same place, or left to the global frame as before. -/
theorem program_of_known (hknown : known ⊆ known') (statements : List (Stmt Unit)) :
    (∃ complaints : List (Token × Problem),
      (program known statements).reports = complaints.map reportOf ∧
      (program known' statements).reports =
        (complaints.filter fun c => !silenced known known' c).map reportOf) ∧
    (program known statements).result.map (stmtsHiding (newlyKnown known known')) =
      (program known' statements).result.map (stmtsHiding (newlyKnown known known')) :=
  have h := program_follows hknown statements fun _ hname => newlyKnown_of_extra hname
  ⟨h.1.exists_complaints, h.2⟩

/-- A block that sets the clock and another name, both to themselves. -/
def selfSettings : List (Stmt Unit) :=
  let clock : Token := ⟨.identifier, "clock", .null, 2⟩
  let other : Token := ⟨.identifier, "x", .null, 3⟩
  [.block [.assign clock (some (.name clock ())) (), .assign other (some (.name other ())) ()]]

/-- Where the clock is known it is no longer read too early, and the other name still is. -/
theorem program_of_known_clock :
    ((program [] selfSettings).reports.length = 2 ∧ (program ["clock"] selfSettings).reports.length = 1) ∧
    (∃ complaints : List (Token × Problem),
      (program [] selfSettings).reports = complaints.map reportOf ∧
      (program ["clock"] selfSettings).reports =
        (complaints.filter fun c => !silenced [] ["clock"] c).map reportOf) ∧
    (program [] selfSettings).result.map (stmtsHiding (newlyKnown [] ["clock"])) =
      (program ["clock"] selfSettings).result.map (stmtsHiding (newlyKnown [] ["clock"])) :=
  ⟨by decide, program_of_known (List.nil_subset ["clock"]) selfSettings⟩

end Programs

end Offside.Binding
