import Offside.Proofs.Binding.Known
import Offside.Proofs.Reader.Kinds

/-!
# What is wrong with a program before it runs

The walk that binds names decides what to report by the state that it has come to: the open scopes, which names
in them are pending, the kind of routine and of class around the place.  Here the same reports are read off the
tree.  A place is given by the way out of it, and a name, a `this`, a `super`, a `return` or a superclass is
faulty for what stands on that way.

* `Binding.Around`, `Binding.Way` — the way from a place out of the program;
* `Binding.stmtsSites` — the places of a program at which something may be wrong, in the order of the walk;
* `Binding.violation?` — what is wrong there; `Binding.violations` — all that is wrong with a program;
* `Binding.stmt_tells` and its companions — the walk reports what is wrong, at every place;
* `Binding.stmts_tell_program` — and so it does for a whole program.
-/

set_option autoImplicit false

namespace Offside.Binding

open Step

/-! ## Ways -/

/-- One step on the way from a place to what stands around it. -/
inductive Around where
  /-- A block, and its statements in front of the place. -/
  | block (before : List (Stmt Unit))
  /-- The body of a function, and its statements in front of the place. -/
  | function (r : Routine Unit) (before : List (Stmt Unit))
  /-- The body of a method of a class that may have a superclass, and its statements in front of the place. -/
  | method (parent : Option Token) (r : Routine Unit) (before : List (Stmt Unit))
  /-- The value to which a name is set. -/
  | value (name : Token)

/-- The way from a place out of the program, nearest step first. -/
abbrev Way := List Around

/-- Whether a name is bound by a scope that is left with the step. -/
def Around.binds (x : String) : Around → Bool
  | block before => (topLevelNames before).contains x
  | function r before => (r.params.map Token.lexeme).contains x || (topLevelNames before).contains x
  | method parent r before =>
    (r.params.map Token.lexeme).contains x || (topLevelNames before).contains x || x == "this" ||
      (parent.isSome && x == "super")
  | value _ => false

/-- The kind of the body that is left with the step, if it is the body of a routine. -/
def Around.body? : Around → Option Body
  | function _ _ => some .function
  | method _ r _ => some (methodBody r)
  | block _ | value _ => none

/-- The kind of the class that is left with the step, if it leads out of a method. -/
def Around.owner? : Around → Option Owner
  | method parent _ _ => some (if parent.isSome then .subclass else .baseClass)
  | function _ _ | block _ | value _ => none

/-- The kind of the nearest routine around a place. -/
def bodyOf (way : Way) : Body :=
  (way.findSome? Around.body?).getD .topLevel

/-- The kind of the nearest class around a place. -/
def ownerOf (way : Way) : Owner :=
  (way.findSome? Around.owner?).getD .noClass

/-- The way behind a statement. -/
def behind (s : Stmt Unit) : Way → Way
  | .block before :: outer => .block (before ++ [s]) :: outer
  | .function r before :: outer => .function r (before ++ [s]) :: outer
  | .method parent r before :: outer => .method parent r (before ++ [s]) :: outer
  | way => way

/-- Whether a place is inside the value of `set`. -/
def inValue : Way → Bool
  | .value _ :: _ => true
  | _ => false

/-! ## Sites -/

/-- Something that may be wrong where it stands. -/
inductive Site where
  | read (t : Token)
  | this (keyword : Token)
  | super (keyword : Token)
  | back (keyword : Token) (hasValue : Bool)
  | inherits (name parent : Token)

/-- Whether a name is read in the value to which it is set in a local scope, being bound by no scope around
and not global. -/
def readsTooEarly (globals : List String) (x : String) : Way → Bool
  | .value name :: outer =>
    name.lexeme == x && !outer.isEmpty && !outer.any (Around.binds x) && !globals.contains x
  | _ => false

/-- What is wrong with a site, for the way out of it. -/
def violation? (globals : List String) (way : Way) : Site → Option (Token × Problem)
  | .read t => if readsTooEarly globals t.lexeme way then some (t, .ownInitializer) else none
  | .this keyword => if ownerOf way = .noClass then some (keyword, .thisOutsideClass) else none
  | .super keyword =>
    match ownerOf way with
    | .noClass => some (keyword, .superOutsideClass)
    | .baseClass => some (keyword, .superWithoutSuperclass)
    | .subclass => none
  | .back keyword hasValue =>
    match bodyOf way with
    | .topLevel => some (keyword, .returnAtTopLevel)
    | .initializer => if hasValue then some (keyword, .returnFromInitializer) else none
    | .function | .method => none
  | .inherits name parent =>
    if parent.lexeme == name.lexeme then some (parent, .inheritsFromItself) else none

mutual

/-- The sites in an expression.  The value of a field assignment comes before its object. -/
def exprSites : Expr Unit → List Site
  | .group inner => exprSites inner
  | .unary _ operand => exprSites operand
  | .binary left _ right => exprSites left ++ exprSites right
  | .logical left _ right => exprSites left ++ exprSites right
  | .name token _ => [.read token]
  | .setField object _ value => exprSites value ++ exprSites object
  | .getField object _ => exprSites object
  | .call callee _ arguments => exprSites callee ++ exprsSites arguments
  | .thisRef keyword _ => [.this keyword]
  | .superRef keyword _ _ => [.super keyword]
  | .literal _ | .unknown => []

/-- The sites in several expressions. -/
def exprsSites : List (Expr Unit) → List Site
  | [] => []
  | e :: es => exprSites e ++ exprsSites es

end

/-- The sites in an expression that may be absent. -/
def exprSites? : Option (Expr Unit) → List Site
  | none => []
  | some e => exprSites e

/-- The sites in the superclass of a class. -/
def superclassSites (name : Token) : Option (Token × Unit) → List Site
  | none => []
  | some (t, _) => [.inherits name t, .read t]

/-- Sites that stand at the same place. -/
def sitesAt (way : Way) (sites : List Site) : List (Way × Site) :=
  sites.map fun site => (way, site)

mutual

/-- The sites in a statement, each with the way out of it. -/
def stmtSites (way : Way) : Stmt Unit → List (Way × Site)
  | .block body => stmtsSites (.block [] :: way) body
  | .define r => routineSites (.function r [] :: behind (.define r) way) r
  | .classDef name parent methods =>
    let inside := behind (.classDef name parent methods) way
    sitesAt inside (superclassSites name parent) ++ methodsSites (parent.map Prod.fst) inside methods
  | .evaluate e => sitesAt way (exprSites e)
  | .branch condition whenTrue none => sitesAt way (exprSites condition) ++ stmtSites way whenTrue
  | .branch condition whenTrue (some whenFalse) =>
    sitesAt way (exprSites condition) ++ stmtSites way whenTrue ++ stmtSites way whenFalse
  | .print e => sitesAt way (exprSites e)
  | .giveBack keyword value => sitesAt way (.back keyword value.isSome :: exprSites? value)
  | .assign name value _ => sitesAt (.value name :: way) (exprSites? value)
  | .loop condition body => sitesAt way (exprSites condition) ++ stmtSites way body
  | .unknown => []

/-- The sites in several statements. -/
def stmtsSites (way : Way) : List (Stmt Unit) → List (Way × Site)
  | [] => []
  | s :: ss => stmtSites way s ++ stmtsSites (behind s way) ss

/-- The sites in a routine, for the way out of its body. -/
def routineSites (way : Way) : Routine Unit → List (Way × Site)
  | .mk _ _ body _ => stmtsSites way body

/-- The sites in the methods of a class. -/
def methodsSites (parent : Option Token) (way : Way) : List (Routine Unit) → List (Way × Site)
  | [] => []
  | r :: rs => routineSites (.method parent r [] :: way) r ++ methodsSites parent way rs

end

/-- What is wrong at places of a program. -/
def violationsAt (globals : List String) (sites : List (Way × Site)) : List (Token × Problem) :=
  sites.filterMap fun place => violation? globals place.1 place.2

/-- All that is wrong with a program, in the order of the walk. -/
def violations (known : List String) (statements : List (Stmt Unit)) : List (Token × Problem) :=
  violationsAt (globalNames known statements) (stmtsSites [] statements)

section Violations

variable {G : List String} {way : Way}

@[simp] theorem violationsAt_append (as bs : List (Way × Site)) :
    violationsAt G (as ++ bs) = violationsAt G as ++ violationsAt G bs :=
  List.filterMap_append

theorem violationsAt_sitesAt (sites : List Site) :
    violationsAt G (sitesAt way sites) = sites.filterMap (violation? G way) :=
  List.filterMap_map

end Violations

/-! ## Steps that tell what is wrong -/

/-- The step yields a value and reports the complaints, and leaves scopes behind of which `post` holds. -/
def Tells {α : Type} (step : Binder α) (w : Walk) (complaints : List (Token × Problem))
    (post : List Scope → Prop) : Prop :=
  ∃ a w', step w = .ok a w' ∧ w'.reports = w.reports ++ complaints.map reportOf ∧ post w'.scopes

section Steps

variable {α β : Type} {w : Walk} {complaints more : List (Token × Problem)} {post next : List Scope → Prop}

theorem Tells.pure (a : α) (h : post w.scopes) : Tells (pure a : Binder α) w [] post :=
  ⟨a, w, rfl, (List.append_nil _).symm, h⟩

theorem Tells.bind {p : Binder α} {f : α → Binder β} (hp : Tells p w complaints post)
    (hf : ∀ a w', post w'.scopes → Tells (f a) w' more next) :
    Tells (p >>= f) w (complaints ++ more) next := by
  obtain ⟨a, w₁, hok, hreports, hpost⟩ := hp
  obtain ⟨b, w₂, hok', hreports', hnext⟩ := hf a w₁ hpost
  refine ⟨b, w₂, (bind_of_ok hok).trans hok', ?_, hnext⟩
  rw [hreports', hreports, List.map_append, List.append_assoc]

theorem Tells.mono {p : Binder α} (hp : Tells p w complaints post)
    (h : ∀ scopes, post scopes → next scopes) : Tells p w complaints next := by
  obtain ⟨a, w', hok, hreports, hpost⟩ := hp
  exact ⟨a, w', hok, hreports, h _ hpost⟩

theorem Tells.of_eq {p q : Binder α} (h : p w = q w) (hq : Tells q w complaints post) :
    Tells p w complaints post := by
  rw [Tells, h]
  exact hq

/-- A step behind which nothing more is reported. -/
theorem Tells.bind_silent {p : Binder α} {f : α → Binder β} (hp : Tells p w complaints post)
    (hf : ∀ a w', post w'.scopes → Tells (f a) w' [] next) : Tells (p >>= f) w complaints next := by
  have h := hp.bind hf
  rwa [List.append_nil] at h

/-- A step whose value is only passed on. -/
theorem Tells.map {p : Binder α} (hp : Tells p w complaints post) (f : α → β) :
    Tells (p >>= fun a => Pure.pure (f a)) w complaints post :=
  hp.bind_silent fun a _ hpost => Tells.pure (f a) hpost

/-- A step that reports what is wrong with one site. -/
theorem Tells.at_site {p : Binder α} {G : List String} {way : Way} {site : Site}
    {verdict : Option (Token × Problem)} (hsite : violation? G way site = verdict)
    (hp : Tells p w verdict.toList post) : Tells p w ([site].filterMap (violation? G way)) post := by
  have hverdict : [site].filterMap (violation? G way) = verdict.toList := by
    cases verdict <;> simp [hsite]
  rwa [hverdict]

theorem tells_complain (t : Token) (problem : Problem) :
    Tells (complain t problem) w [(t, problem)] (· = w.scopes) :=
  ⟨(), _, rfl, rfl, rfl⟩

theorem tells_declare (name : String) (ready : Bool) :
    Tells (declare name ready) w [] (· = enter name ready w.scopes) :=
  ⟨(), _, rfl, (List.append_nil _).symm, rfl⟩

theorem tells_locate (name : String) : Tells (locate name) w [] (· = w.scopes) :=
  ⟨_, w, rfl, (List.append_nil _).symm, rfl⟩

/-- What is opened is closed again, if only the innermost scope was touched. -/
theorem Tells.inScope {scope : Scope} {p : Binder α}
    (hp : Tells p (w.within scope) complaints fun scopes => scopes.tail = w.scopes) :
    Tells (Binding.inScope scope p) w complaints (· = w.scopes) := by
  obtain ⟨a, inner, hok, hreports, htail⟩ := hp
  have hopen : (modify fun w => { w with scopes := scope :: w.scopes } : Binder Unit) w =
      .ok () (w.within scope) := rfl
  refine ⟨a, { inner with scopes := inner.scopes.tail }, ?_, hreports, htail⟩
  exact (bind_of_ok hopen).trans (bind_of_ok hok)

theorem Tells.inClass {derived : Bool} {p : Binder α}
    (hp : Tells p (w.withinClass derived) complaints (· = (w.withinClass derived).scopes)) :
    Tells (Binding.inClass derived p) w complaints (· = w.scopes) := by
  cases derived with
  | false => exact (hp.mono fun _ h => congrArg List.tail h).inScope
  | true =>
    refine Tells.inScope ((Tells.inScope (hp.mono fun _ h => congrArg List.tail h)).mono fun _ h => ?_)
    exact congrArg List.tail h

end Steps

/-! ## Expressions -/

section Expressions

variable {G : List String} {ctx : Context} {way : Way}

/-- What an expression has to do with the way out of it: the class around it, and which names are pending. -/
structure Placed (G : List String) (way : Way) (ctx : Context) (scopes : List Scope) : Prop where
  owner : ctx.owner = ownerOf way
  pending : ∀ x, isPending scopes x = readsTooEarly G x way

theorem tells_locateVariable (t : Token) {w : Walk}
    (hpending : isPending w.scopes t.lexeme = readsTooEarly G t.lexeme way) :
    Tells (locateVariable t) w ([Site.read t].filterMap (violation? G way)) (· = w.scopes) := by
  refine Tells.at_site rfl ?_
  rw [violation?, ← hpending]
  refine Tells.of_eq (locateVariable_apply t w) ?_
  cases isPending w.scopes t.lexeme with
  | false => exact tells_locate t.lexeme
  | true =>
    refine (tells_complain t .ownInitializer).bind_silent fun _ w₁ h₁ => ?_
    rw [← h₁]
    exact tells_locate t.lexeme

theorem tells_checkSuper (keyword : Token) {w : Walk} (howner : ctx.owner = ownerOf way) :
    Tells (checkSuper ctx keyword) w ([Site.super keyword].filterMap (violation? G way)) (· = w.scopes) := by
  refine Tells.at_site rfl ?_
  rw [checkSuper, violation?, ← howner]
  cases ctx.owner with
  | noClass => exact tells_complain keyword .superOutsideClass
  | baseClass => exact tells_complain keyword .superWithoutSuperclass
  | subclass => exact Tells.pure () rfl

mutual

/-- The walk of an expression reports what is wrong in it. -/
theorem expr_tells : (e : Expr Unit) → e.Understood → ∀ {w : Walk}, Placed G way ctx w.scopes →
    Tells (expr ctx e) w ((exprSites e).filterMap (violation? G way)) (· = w.scopes)
  | .literal value, _, w, h => Tells.pure _ rfl
  | .group inner, hu, w, h => by
    simp only [expr, exprSites]
    exact (expr_tells inner hu h).map _
  | .unary operator operand, hu, w, h => by
    simp only [expr, exprSites]
    exact (expr_tells operand hu h).map _
  | .binary left operator right, hu, w, h => by
    simp only [expr, exprSites, List.filterMap_append]
    refine (expr_tells left hu.1 h).bind fun _ w₁ h₁ => ?_
    rw [← h₁] at h ⊢
    exact (expr_tells right hu.2 h).map _
  | .logical left operator right, hu, w, h => by
    simp only [expr, exprSites, List.filterMap_append]
    refine (expr_tells left hu.1 h).bind fun _ w₁ h₁ => ?_
    rw [← h₁] at h ⊢
    exact (expr_tells right hu.2 h).map _
  | .name token _, _, w, h => by
    simp only [expr, exprSites]
    exact (tells_locateVariable token (h.pending _)).map _
  | .setField object field value, hu, w, h => by
    simp only [expr, exprSites, List.filterMap_append]
    refine (expr_tells value hu.2 h).bind fun _ w₁ h₁ => ?_
    rw [← h₁] at h ⊢
    exact (expr_tells object hu.1 h).map _
  | .getField object field, hu, w, h => by
    simp only [expr, exprSites]
    exact (expr_tells object hu h).map _
  | .call callee paren arguments, hu, w, h => by
    simp only [expr, exprSites, List.filterMap_append]
    refine (expr_tells callee hu.1 h).bind fun _ w₁ h₁ => ?_
    rw [← h₁] at h ⊢
    exact (exprs_tell arguments hu.2 h).map _
  | .thisRef keyword _, _, w, h => by
    simp only [expr, exprSites]
    refine Tells.at_site rfl ?_
    rw [violation?, ← h.owner]
    by_cases howner : ctx.owner = .noClass
    · rw [if_pos howner, if_pos howner]
      exact (tells_complain keyword .thisOutsideClass).map _
    · rw [if_neg howner, if_neg howner]
      exact (tells_locate "this").map _
  | .superRef keyword method _, _, w, h => by
    simp only [expr, exprSites]
    refine (tells_checkSuper keyword h.owner).bind_silent fun _ w₁ h₁ => ?_
    rw [← h₁]
    exact (tells_locate "super").map _
  | .unknown, hu, _, _ => hu.elim

/-- The walk of several expressions. -/
theorem exprs_tell : (es : List (Expr Unit)) → Expr.UnderstoodAll es → ∀ {w : Walk},
    Placed G way ctx w.scopes →
    Tells (exprs ctx es) w ((exprsSites es).filterMap (violation? G way)) (· = w.scopes)
  | [], _, w, h => Tells.pure _ rfl
  | e :: es, hu, w, h => by
    simp only [exprs, exprsSites, List.filterMap_append]
    refine (expr_tells e hu.1 h).bind fun _ w₁ h₁ => ?_
    rw [← h₁] at h ⊢
    exact (exprs_tell es hu.2 h).map _

end

theorem expr?_tells (e : Option (Expr Unit)) (hu : ∀ inner ∈ e, inner.Understood) {w : Walk}
    (h : Placed G way ctx w.scopes) :
    Tells (expr? ctx e) w ((exprSites? e).filterMap (violation? G way)) (· = w.scopes) := by
  cases e with
  | none => exact Tells.pure _ rfl
  | some e => exact (expr_tells e (hu e rfl) h).map _

end Expressions

/-! ## Scopes and ways -/

/-- What surrounds a place, besides its scopes, as the way out of it tells. -/
def contextAt (G : List String) (way : Way) : Context :=
  ⟨G, bodyOf way, ownerOf way⟩

/-- Whether one of the scopes declares a name. -/
def declaresAny (scopes : List Scope) (x : String) : Bool :=
  scopes.any fun scope => scope.declares x

/-- The open scopes at a statement are those that are left on the way out of it: no name is pending, and names
that are not global are declared by the scopes if they are bound on the way. -/
structure Reflects (G : List String) (way : Way) (scopes : List Scope) : Prop where
  statement : inValue way = false
  empty : scopes.isEmpty = way.isEmpty
  ready : AllReady scopes
  binds : ∀ x, x ∉ G → declaresAny scopes x = way.any (Around.binds x)

section Ways

variable {G : List String} {way : Way} {scopes scopes' : List Scope} {s : Stmt Unit} {x : String}

theorem bodyOf_behind (s : Stmt Unit) (way : Way) : bodyOf (behind s way) = bodyOf way := by
  unfold behind
  split <;> rfl

theorem ownerOf_behind (s : Stmt Unit) (way : Way) : ownerOf (behind s way) = ownerOf way := by
  unfold behind
  split <;> rfl

theorem isEmpty_behind (s : Stmt Unit) (way : Way) : (behind s way).isEmpty = way.isEmpty := by
  unfold behind
  split <;> rfl

theorem contextAt_behind (s : Stmt Unit) (way : Way) : contextAt G (behind s way) = contextAt G way := by
  rw [contextAt, bodyOf_behind, ownerOf_behind]
  rfl

theorem contains_topLevelNames_append (before : List (Stmt Unit)) (s : Stmt Unit) (x : String) :
    (topLevelNames (before ++ [s])).contains x =
      ((topLevelNames before).contains x || boundName? s == some x) := by
  rw [topLevelNames, List.filterMap_append, List.contains_append, topLevelNames]
  congr 1
  rw [Bool.eq_iff_iff]
  cases h : boundName? s with
  | none => simp [h]
  | some name => simpa [h] using eq_comm

/-- Behind a statement its name is bound too, unless it stands outside all scopes. -/
theorem any_behind (hstatement : inValue way = false) (s : Stmt Unit) (x : String) :
    (behind s way).any (Around.binds x) =
      (way.any (Around.binds x) || (!way.isEmpty && boundName? s == some x)) := by
  cases way with
  | nil => rfl
  | cons around outer =>
    cases around with
    | block before =>
      simp only [behind, List.any_cons, Around.binds, contains_topLevelNames_append, List.isEmpty_cons]
      grind
    | function r before =>
      simp only [behind, List.any_cons, Around.binds, contains_topLevelNames_append, List.isEmpty_cons]
      grind
    | method parent r before =>
      simp only [behind, List.any_cons, Around.binds, contains_topLevelNames_append, List.isEmpty_cons]
      grind
    | value name => exact Bool.noConfusion hstatement

theorem declaresAny_enter (name : String) (ready : Bool) (scopes : List Scope) (x : String) :
    declaresAny (enter name ready scopes) x = (declaresAny scopes x || (!scopes.isEmpty && name == x)) := by
  cases scopes with
  | nil => rfl
  | cons scope outer =>
    simp only [declaresAny, enter, List.any_cons, Scope.declares, List.isEmpty_cons]
    grind

theorem isEmpty_enter (name : String) (ready : Bool) (scopes : List Scope) :
    (enter name ready scopes).isEmpty = scopes.isEmpty := by
  cases scopes <;> rfl

theorem inValue_behind (s : Stmt Unit) (way : Way) : inValue (behind s way) = inValue way := by
  unfold behind
  split <;> rfl

/-- The scopes behind a statement, in terms of the name that it binds. -/
theorem Reflects.behind (h : Reflects G way scopes) (hempty : scopes'.isEmpty = scopes.isEmpty)
    (hready : AllReady scopes')
    (hdeclares : ∀ x, x ∉ G →
      declaresAny scopes' x = (declaresAny scopes x || (!scopes.isEmpty && boundName? s == some x))) :
    Reflects G (Binding.behind s way) scopes' := by
  refine ⟨(inValue_behind s way).trans h.statement, ?_, hready, fun x hx => ?_⟩
  · rw [isEmpty_behind, hempty, h.empty]
  · rw [any_behind h.statement, hdeclares x hx, h.binds x hx, h.empty]

theorem Reflects.behind_of_none (h : Reflects G way scopes) (hs : boundName? s = none) :
    Reflects G (Binding.behind s way) scopes := by
  refine h.behind rfl h.ready fun x _ => ?_
  simp [hs]

theorem Reflects.of_behind (h : Reflects G (Binding.behind s way) scopes)
    (hstatement : inValue way = false) (hs : boundName? s = none) : Reflects G way scopes := by
  refine ⟨hstatement, h.empty.trans (isEmpty_behind s way), h.ready, fun x hx => ?_⟩
  rw [h.binds x hx, any_behind hstatement]
  simp [hs]

theorem Reflects.behind_enter (h : Reflects G way scopes) {name : String} (hs : boundName? s = some name) :
    Reflects G (Binding.behind s way) (enter name true scopes) := by
  refine h.behind (isEmpty_enter _ _ _) (h.ready.enter name) fun x _ => ?_
  rw [declaresAny_enter, hs]
  rfl

theorem Reflects.placed (h : Reflects G way scopes) : Placed G way (contextAt G way) scopes := by
  refine ⟨rfl, fun x => ?_⟩
  rw [not_isPending h.ready]
  unfold readsTooEarly
  split
  · exact Bool.noConfusion h.statement
  · rfl

theorem Reflects.block (h : Reflects G way scopes) : Reflects G (.block [] :: way) ([] :: scopes) :=
  ⟨rfl, rfl, h.ready.cons fun _ => by simp, fun x hx => h.binds x hx⟩

/-- Among the scopes there is none with the name of `set` if it is declared; then it is not global either,
unless no scope is open. -/
theorem target?_eq_none_iff {name : String} : target? G scopes name = none ↔
    declaresAny scopes name = false ∧ (scopes.isEmpty = true ∨ name ∉ G) := by
  have hdistance : distance? scopes name = none ↔ declaresAny scopes name = false := by
    rw [distance?, List.findIdx?_eq_none_iff, declaresAny, List.any_eq_false]
    simp
  unfold target?
  cases hd : distance? scopes name with
  | some d =>
    have hdeclares : declaresAny scopes name ≠ false := fun h => by
      rw [hdistance.2 h] at hd
      cases hd
    simp [hdeclares]
  | none =>
    simp only [hdistance.1 hd, true_and, ite_eq_right_iff, reduceCtorEq, imp_false, Bool.and_eq_true,
      Bool.not_eq_true', List.contains_iff_mem]
    grind

theorem declares_paramScope_eq (params : List Token) (x : String) :
    (paramScope params).declares x = (params.map Token.lexeme).contains x := by
  rw [Bool.eq_iff_iff]
  simp [Scope.declares, paramScope]

theorem Reflects.function (h : Reflects G way scopes) (r : Routine Unit) :
    Reflects G (.function r [] :: way) (paramScope r.params :: scopes) := by
  refine ⟨rfl, rfl, h.ready.cons (lookup_paramScope _), fun x hx => ?_⟩
  have hparams := declares_paramScope_eq r.params x
  have hbinds := h.binds x hx
  simp only [declaresAny, List.any_cons, Around.binds, hparams] at hbinds ⊢
  rw [hbinds]
  simp [topLevelNames]

theorem Reflects.method (h : Reflects G way scopes) (parent : Option (Token × Unit)) (r : Routine Unit) :
    Reflects G (.method (parent.map Prod.fst) r [] :: way)
      (paramScope r.params :: classScopes parent.isSome scopes) := by
  refine ⟨rfl, rfl, (allReady_classScopes _ h.ready).cons (lookup_paramScope _), fun x hx => ?_⟩
  have hparams := declares_paramScope_eq r.params x
  have hbinds := h.binds x hx
  cases parent with
  | none =>
    simp only [declaresAny, classScopes, List.any_cons, Around.binds, hparams] at hbinds ⊢
    rw [← hbinds]
    simp [topLevelNames, Scope.declares]
    grind
  | some p =>
    simp only [declaresAny, classScopes, List.any_cons, Around.binds, hparams] at hbinds ⊢
    rw [← hbinds]
    simp [topLevelNames, Scope.declares]
    grind

end Ways

/-! ## Statements -/

section Statements

variable {G : List String} {way : Way}

/-- The superclass of a class, which is never read too early. -/
theorem tells_superclass (name : Token) (parent : Option (Token × Unit)) {w : Walk}
    (h : Placed G way (contextAt G way) w.scopes) :
    Tells (superclass name parent) w ((superclassSites name parent).filterMap (violation? G way))
      (· = w.scopes) := by
  cases parent with
  | none => exact Tells.pure _ rfl
  | some p =>
    have hsites : superclassSites name (some p) = [.inherits name p.1] ++ [.read p.1] := rfl
    have hcompared : Tells (compareParent name p.1) w
        ([Site.inherits name p.1].filterMap (violation? G way)) (· = w.scopes) := by
      refine Tells.at_site rfl ?_
      rw [compareParent, violation?]
      split
      · exact tells_complain p.1 .inheritsFromItself
      · exact Tells.pure () rfl
    rw [hsites, List.filterMap_append, superclass_some]
    refine hcompared.bind fun _ w₁ h₁ => ?_
    rw [← h₁] at h ⊢
    exact (tells_locateVariable p.1 (h.pending _)).map _

theorem tells_checkReturn (keyword : Token) (hasValue : Bool) {w : Walk} :
    Tells (checkReturn (contextAt G way) keyword hasValue) w
      ([Site.back keyword hasValue].filterMap (violation? G way)) (· = w.scopes) := by
  refine Tells.at_site rfl ?_
  rw [checkReturn, violation?, contextAt]
  cases bodyOf way with
  | topLevel =>
    refine (tells_complain keyword .returnAtTopLevel).bind_silent fun _ w₁ h₁ => ?_
    cases hasValue <;> exact Tells.pure _ h₁
  | initializer =>
    cases hasValue with
    | false => exact Tells.pure _ rfl
    | true => exact tells_complain keyword .returnFromInitializer
  | function | method => cases hasValue <;> exact Tells.pure _ rfl

/-- A name is read too early in the value for which it is declared in some scope. -/
theorem Reflects.readsTooEarly_iff {scopes : List Scope} (h : Reflects G way scopes) (name : Token) (x : String) :
    readsTooEarly G x (.value name :: way) = true ↔
      name.lexeme = x ∧ scopes.isEmpty = false ∧ target? G scopes x = none := by
  rw [readsTooEarly, target?_eq_none_iff, ← h.empty]
  by_cases hx : x ∈ G
  · simp [hx]
    grind
  · simp [hx, h.binds x hx, and_assoc]

theorem isPending_enter {scopes : List Scope} (h : AllReady scopes) (name x : String) :
    isPending (enter name false scopes) x = true ↔ name = x ∧ scopes.isEmpty = false := by
  cases scopes with
  | nil => simp [isPending, enter]
  | cons scope outer =>
    have hready := h scope List.mem_cons_self x
    simp only [isPending, enter, List.head?_cons, Option.bind_some, List.lookup_cons, List.isEmpty_cons]
    by_cases hx : name = x
    · simp [hx]
    · simp [hx, beq_eq_false_iff_ne.2 (Ne.symm hx), hready]

/-- A name that `set` assigns is not pending in its value. -/
theorem Reflects.placed_assigned {scopes : List Scope} (h : Reflects G way scopes) {name : Token} {d : Nat}
    (htarget : target? G scopes name.lexeme = some d) :
    Placed G (.value name :: way) (contextAt G way) scopes := by
  refine ⟨rfl, fun x => ?_⟩
  rw [not_isPending h.ready, eq_comm, Bool.eq_false_iff, ne_eq, h.readsTooEarly_iff]
  rintro ⟨rfl, -, hnone⟩
  rw [htarget] at hnone
  cases hnone

/-- A name that `set` declares is pending in its value. -/
theorem Reflects.placed_declared {scopes : List Scope} (h : Reflects G way scopes) {name : Token}
    (htarget : target? G scopes name.lexeme = none) :
    Placed G (.value name :: way) (contextAt G way) (enter name.lexeme false scopes) := by
  refine ⟨rfl, fun x => ?_⟩
  rw [Bool.eq_iff_iff, isPending_enter h.ready, h.readsTooEarly_iff]
  constructor
  · rintro ⟨rfl, hopen⟩
    exact ⟨rfl, hopen, htarget⟩
  · rintro ⟨hname, hopen, -⟩
    exact ⟨hname, hopen⟩

/-- The scopes behind a statement, of which only the innermost one may have changed. -/
structure Passed (G : List String) (s : Stmt Unit) (way : Way) (scopes scopes' : List Scope) : Prop where
  reflects : Reflects G (behind s way) scopes'
  tail : scopes'.tail = scopes.tail

/-- A statement that binds no name leaves the scopes as they are. -/
theorem Reflects.passed {s : Stmt Unit} {scopes scopes' : List Scope} (h : Reflects G way scopes)
    (hs : boundName? s = none) (hscopes : scopes' = scopes) : Passed G s way scopes scopes' := by
  subst hscopes
  exact ⟨h.behind_of_none hs, rfl⟩

/-- Behind a statement that is part of another one, where both bind no name. -/
theorem Passed.outer {s outer : Stmt Unit} {scopes scopes' : List Scope} (h : Passed G s way scopes scopes')
    (hway : Reflects G way scopes) (hs : boundName? s = none) (houter : boundName? outer = none) :
    Passed G outer way scopes scopes' :=
  ⟨(h.reflects.of_behind hway.statement hs).behind_of_none houter, h.tail⟩

theorem Passed.trans {s : Stmt Unit} {scopes scopes' before : List Scope} (h : Passed G s way scopes scopes')
    (hbefore : scopes.tail = before.tail) : Passed G s way before scopes' :=
  ⟨h.reflects, h.tail.trans hbefore⟩

theorem assign_tells (name : Token) (value : Option (Expr Unit)) (hu : ∀ e ∈ value, e.Understood) {w : Walk}
    (h : Reflects G way w.scopes) :
    Tells (assign (contextAt G way) name value) w
      ((exprSites? value).filterMap (violation? G (.value name :: way)))
      (Passed G (.assign name value ()) way w.scopes) := by
  refine Tells.of_eq (assign_apply _ name value w) ?_
  have hglobals : (contextAt G way).globals = G := rfl
  rw [hglobals]
  cases htarget : target? G w.scopes name.lexeme with
  | some d =>
    refine ((expr?_tells value hu (h.placed_assigned htarget)).map _).mono fun scopes h₁ => ?_
    subst h₁
    refine ⟨h.behind rfl h.ready fun x hx => ?_, rfl⟩
    -- the name was declared before, since it is not global
    by_cases hname : name.lexeme = x
    · have hdeclared : declaresAny w.scopes x = true := by
        subst hname
        by_contra hnot
        rw [target?_eq_none_iff.2 ⟨Bool.eq_false_iff.2 hnot, .inr hx⟩] at htarget
        cases htarget
      rw [hdeclared, Bool.true_or]
    · simp [boundName?, hname]
  | none =>
    rw [← List.nil_append ((exprSites? value).filterMap _)]
    refine (tells_declare name.lexeme false).bind fun _ w₁ h₁ => ?_
    have hplaced := h.placed_declared htarget
    rw [← h₁] at hplaced
    refine (expr?_tells value hu hplaced).bind_silent fun _ w₂ h₂ => ?_
    refine ((tells_declare name.lexeme true).map _).mono fun scopes h₃ => ?_
    subst h₃
    rw [h₂, h₁]
    refine ⟨h.behind ?_ ?_ fun x _ => ?_, ?_⟩
    · rw [isEmpty_enter, isEmpty_enter]
    · exact h.ready.declared (.assign name none none)
    · rw [declaresAny_enter, declaresAny_enter, isEmpty_enter, boundName?]
      grind
    · rw [tail_enter, tail_enter]

mutual

/-- The walk of a statement reports what is wrong in it, and comes out behind it. -/
theorem stmt_tells : (s : Stmt Unit) → s.Plain → s.Understood → ∀ {way : Way} {w : Walk},
    Reflects G way w.scopes →
    Tells (stmt (contextAt G way) s) w (violationsAt G (stmtSites way s)) (Passed G s way w.scopes)
  | .block body, hp, hu, way, w, h => by
    simp only [stmt, stmtSites]
    have hbody := (stmts_tell body hp hu h.block (w := w.within [])).mono fun _ h₁ => h₁.1
    exact (hbody.inScope.map _).mono fun _ h₁ => h.passed rfl h₁
  | .define r, hp, hu, way, w, h => by
    simp only [stmt, stmtSites]
    refine (tells_declare r.name.lexeme true).bind fun _ w₁ h₁ => ?_
    have hinside := h.behind_enter (s := .define r) rfl
    rw [← h₁] at hinside
    refine ((routine_tells r hp.2 hu ?_ (hinside.function r)).map _).mono fun _ h₂ => ?_
    · exact congrArg (Context.mk G .function) (ownerOf_behind _ way).symm
    · subst h₂
      exact ⟨hinside, by rw [h₁, tail_enter]⟩
  | .classDef name parent methods, hp, hu, way, w, h => by
    simp only [stmt, stmtSites, violationsAt_append, violationsAt_sitesAt]
    refine (tells_declare name.lexeme true).bind fun _ w₁ h₁ => ?_
    have hinside := h.behind_enter (s := .classDef name parent methods) rfl
    rw [← h₁] at hinside
    refine (tells_superclass name parent hinside.placed).bind fun _ w₂ h₂ => ?_
    have hmethods := routines_tell parent methods hp.2 hu
      (congrArg (Context.mk G · _) (bodyOf_behind _ way).symm) (h₂ ▸ hinside) (scopes_withinClass parent.isSome w₂)
    refine (hmethods.inClass.map _).mono fun _ h₃ => ?_
    subst h₃
    exact ⟨h₂ ▸ hinside, by rw [h₂, h₁, tail_enter]⟩
  | .evaluate e, hp, hu, way, w, h => by
    simp only [stmt, stmtSites, violationsAt_sitesAt]
    exact ((expr_tells e hu h.placed).map _).mono fun _ h₁ => h.passed rfl h₁
  | .branch condition whenTrue none, hp, hu, way, w, h => by
    simp only [stmt, stmtSites, violationsAt_append, violationsAt_sitesAt]
    refine (expr_tells condition hu.1 h.placed).bind fun _ w₁ h₁ => ?_
    rw [← h₁] at h ⊢
    exact ((stmt_tells whenTrue hp.2.2 hu.2 h).map _).mono fun _ h₂ => h₂.outer h hp.2.1 rfl
  | .branch condition whenTrue (some whenFalse), hp, hu, way, w, h => by
    obtain ⟨-, ⟨htn, htp⟩, hfn, hfp⟩ := hp
    simp only [stmt, stmtSites, violationsAt_append, violationsAt_sitesAt, List.append_assoc]
    refine (expr_tells condition hu.1 h.placed).bind fun _ w₁ h₁ => ?_
    rw [← h₁] at h ⊢
    refine (stmt_tells whenTrue htp hu.2.1 h).bind fun _ w₂ h₂ => ?_
    have hbetween := h₂.reflects.of_behind h.statement htn
    refine ((stmt_tells whenFalse hfp hu.2.2 hbetween).map _).mono fun _ h₃ => ?_
    exact (h₃.outer hbetween hfn rfl).trans h₂.tail
  | .print e, hp, hu, way, w, h => by
    simp only [stmt, stmtSites, violationsAt_sitesAt]
    exact ((expr_tells e hu h.placed).map _).mono fun _ h₁ => h.passed rfl h₁
  | .giveBack keyword value, hp, hu, way, w, h => by
    simp only [stmt, stmtSites, violationsAt_sitesAt]
    rw [← List.singleton_append, List.filterMap_append]
    refine (tells_checkReturn keyword value.isSome).bind fun _ w₁ h₁ => ?_
    rw [← h₁] at h ⊢
    exact ((expr?_tells value hu h.placed).map _).mono fun _ h₂ => h.passed rfl h₂
  | .assign name value _, hp, hu, way, w, h => by
    simp only [stmt, stmtSites, violationsAt_sitesAt]
    exact assign_tells name value hu h
  | .loop condition body, hp, hu, way, w, h => by
    simp only [stmt, stmtSites, violationsAt_append, violationsAt_sitesAt]
    refine (expr_tells condition hu.1 h.placed).bind fun _ w₁ h₁ => ?_
    rw [← h₁] at h ⊢
    exact ((stmt_tells body hp.2.2 hu.2 h).map _).mono fun _ h₂ => h₂.outer h hp.2.1 rfl
  | .unknown, _, hu, _, _, _ => hu.elim

/-- The walk of several statements. -/
theorem stmts_tell : (ss : List (Stmt Unit)) → Stmt.PlainAll ss → Stmt.UnderstoodAll ss →
    ∀ {way : Way} {w : Walk}, Reflects G way w.scopes →
    Tells (stmts (contextAt G way) ss) w (violationsAt G (stmtsSites way ss)) fun scopes =>
      scopes.tail = w.scopes.tail ∧ scopes.isEmpty = w.scopes.isEmpty
  | [], _, _, way, w, h => Tells.pure _ ⟨rfl, rfl⟩
  | s :: ss, hp, hu, way, w, h => by
    simp only [stmts, stmtsSites, violationsAt_append]
    refine (stmt_tells s hp.1 hu.1 h).bind fun _ w₁ h₁ => ?_
    have hrest := stmts_tell ss hp.2 hu.2 h₁.reflects
    rw [contextAt_behind] at hrest
    refine (hrest.map _).mono fun scopes h₂ => ?_
    refine ⟨h₂.1.trans h₁.tail, h₂.2.trans ?_⟩
    rw [h₁.reflects.empty, isEmpty_behind, h.empty]

/-- The walk of a routine, for the way out of its body. -/
theorem routine_tells : (r : Routine Unit) → r.Plain → r.Understood → ∀ {way : Way} {ctx : Context} {w : Walk},
    ctx = contextAt G way → Reflects G way (paramScope r.params :: w.scopes) →
    Tells (routine ctx r) w (violationsAt G (routineSites way r)) (· = w.scopes)
  | .mk name params body returnType, hp, hu, way, ctx, w, hctx, h => by
    subst hctx
    simp only [routine, routineSites]
    have hbody := (stmts_tell body hp.2 hu h (w := w.within (paramScope params))).mono fun _ h₁ => h₁.1
    exact hbody.inScope.map _

/-- The walk of the methods of a class. -/
theorem routines_tell (parent : Option (Token × Unit)) : (rs : List (Routine Unit)) → Routine.PlainAll rs →
    Routine.UnderstoodAll rs → ∀ {way : Way} {ctx : Context} {scopes : List Scope} {w : Walk},
    (ctx = { contextAt G way with owner := if parent.isSome then .subclass else .baseClass }) →
    Reflects G way scopes → w.scopes = classScopes parent.isSome scopes →
    Tells (routines ctx rs) w (violationsAt G (methodsSites (parent.map Prod.fst) way rs)) (· = w.scopes)
  | [], _, _, way, ctx, scopes, w, hctx, h, hw => Tells.pure _ rfl
  | r :: rs, hp, hu, way, ctx, scopes, w, hctx, h, hw => by
    simp only [routines, methodsSites, violationsAt_append]
    have hinside := h.method parent r
    rw [← hw] at hinside
    refine (routine_tells r hp.1 hu.1 ?_ hinside).bind fun _ w₁ h₁ => ?_
    · subst hctx
      cases parent <;> rfl
    · rw [← h₁] at hw ⊢
      exact (routines_tell parent rs hp.2 hu.2 hctx h hw).map _

end

end Statements

/-! ## Programs -/

theorem reflects_nil (G : List String) : Reflects G [] [] :=
  ⟨rfl, rfl, fun _ h => (List.not_mem_nil h).elim, fun _ _ => rfl⟩

/-- The walk of a program goes to its end, closes every scope and has reported what is wrong. -/
theorem stmts_tell_program (known : List String) {statements : List (Stmt Unit)}
    (h : Program.Shaped statements) :
    ∃ bound, stmts (.top (globalNames known statements)) statements ⟨[], []⟩ =
      .ok bound ⟨[], (violations known statements).map reportOf⟩ := by
  obtain ⟨bound, ⟨scopes, reports⟩, hok, hreports, -, hempty⟩ :=
    stmts_tell statements h.plain h.understood (reflects_nil (globalNames known statements)) (w := ⟨[], []⟩)
  obtain rfl : scopes = [] := List.isEmpty_iff.1 hempty
  obtain rfl : reports = (violations known statements).map reportOf := hreports
  exact ⟨bound, hok⟩

end Offside.Binding
