import Offside.Proofs.Reader.Complaints

/-!
# Where the tokens of a tree come from

Reading a text makes a tree of it, also where it has errors: what could not be read is replaced and left out.  The
tokens that the tree holds are tokens of the text, wherever an error was noticed and reading went on; those that name
something are identifiers, and no node is of an unknown kind.  `T` stands for the tokens of the text.

* `Expr.Drawn`, `Stmt.Drawn` — trees that are made of the tokens `T`;
* `Reading.Draws` — a step whose values are made of them, with one lemma for each step of the reader;
* `Program.drawn_of_read` — the statements of a whole text.
-/

set_option autoImplicit false

namespace Offside

open Token (Kind)

/-! ## Trees made of tokens -/

/-- One of the tokens `T`, and an identifier. -/
def Token.Names (T : Token → Prop) (t : Token) : Prop :=
  T t ∧ t.kind = .identifier

mutual

/-- The tokens of the expression are among `T`, and every node is of a known kind. -/
def Expr.Drawn (T : Token → Prop) : Expr Unit → Prop
  | .literal _ => True
  | .group inner => inner.Drawn T
  | .unary operator operand => T operator ∧ operand.Drawn T
  | .binary left operator right => left.Drawn T ∧ T operator ∧ right.Drawn T
  | .logical left operator right => left.Drawn T ∧ T operator ∧ right.Drawn T
  | .name token _ => token.Names T
  | .setField object field value => object.Drawn T ∧ field.Names T ∧ value.Drawn T
  | .getField object field => object.Drawn T ∧ field.Names T
  | .call callee paren arguments => callee.Drawn T ∧ T paren ∧ Expr.DrawnAll T arguments
  | .thisRef keyword _ => T keyword
  | .superRef keyword method _ => T keyword ∧ method.Names T
  | .unknown => False

/-- The same of several expressions. -/
def Expr.DrawnAll (T : Token → Prop) : List (Expr Unit) → Prop
  | [] => True
  | e :: es => e.Drawn T ∧ Expr.DrawnAll T es

end

mutual

/-- The tokens of the statement are among `T`, and every node is of a known kind. -/
def Stmt.Drawn (T : Token → Prop) : Stmt Unit → Prop
  | .block body => Stmt.DrawnAll T body
  | .define r => r.Drawn T
  | .classDef name parent methods =>
    name.Names T ∧ (∀ p ∈ parent, p.1.Names T) ∧ Routine.DrawnAll T methods
  | .evaluate e => e.Drawn T
  | .branch condition whenTrue none => condition.Drawn T ∧ whenTrue.Drawn T
  | .branch condition whenTrue (some whenFalse) => condition.Drawn T ∧ whenTrue.Drawn T ∧ whenFalse.Drawn T
  | .print e => e.Drawn T
  | .giveBack keyword value => T keyword ∧ ∀ e ∈ value, e.Drawn T
  | .assign name value _ => name.Names T ∧ ∀ e ∈ value, e.Drawn T
  | .loop condition body => condition.Drawn T ∧ body.Drawn T
  | .unknown => False

/-- The same of several statements. -/
def Stmt.DrawnAll (T : Token → Prop) : List (Stmt Unit) → Prop
  | [] => True
  | s :: ss => s.Drawn T ∧ Stmt.DrawnAll T ss

/-- The same of a routine; its return type may also be a reserved word. -/
def Routine.Drawn (T : Token → Prop) : Routine Unit → Prop
  | .mk name params body returnType =>
    name.Names T ∧ (∀ t ∈ params, t.Names T) ∧ Stmt.DrawnAll T body ∧ ∀ t ∈ returnType, T t

/-- The same of several routines. -/
def Routine.DrawnAll (T : Token → Prop) : List (Routine Unit) → Prop
  | [] => True
  | r :: rs => r.Drawn T ∧ Routine.DrawnAll T rs

end

section Trees

variable {T : Token → Prop}

theorem Expr.drawnAll_concat {es : List (Expr Unit)} {e : Expr Unit} (hes : Expr.DrawnAll T es) (he : e.Drawn T) :
    Expr.DrawnAll T (es ++ [e]) := by
  induction es with
  | nil => exact ⟨he, trivial⟩
  | cons first es ih => exact ⟨hes.1, ih hes.2⟩

theorem Stmt.drawnAll_iff {ss : List (Stmt Unit)} : Stmt.DrawnAll T ss ↔ ∀ s ∈ ss, s.Drawn T := by
  induction ss with
  | nil => simp [Stmt.DrawnAll]
  | cons s ss ih => simp [Stmt.DrawnAll, ih]

theorem Routine.drawnAll_iff {rs : List (Routine Unit)} : Routine.DrawnAll T rs ↔ ∀ r ∈ rs, r.Drawn T := by
  induction rs with
  | nil => simp [Routine.DrawnAll]
  | cons r rs ih => simp [Routine.DrawnAll, ih]

theorem Routine.Drawn.name {r : Routine Unit} (h : r.Drawn T) : r.name.Names T := by
  cases r with
  | mk name params body returnType => exact h.1

theorem Expr.drawn_join (tier : Reading.Tier) {left right : Expr Unit} {operator : Token} (hl : left.Drawn T)
    (ho : T operator) (hr : right.Drawn T) : (tier.join left operator right).Drawn T := by
  cases tier <;> exact ⟨hl, ho, hr⟩

end Trees

/-! ## Steps -/

namespace Reading

open Step

variable {α β : Type} {T : Token → Prop} {P : α → Prop} {Q : β → Prop}

/-- As long as only the tokens `T` are left, the step yields values with `P`, and only such tokens are left behind
it. -/
def Draws (T : Token → Prop) (P : α → Prop) (p : Reading α) : Prop :=
  ∀ s : Cursor, (∀ t ∈ s.rest, T t) → Ends (p s) (fun a u => P a ∧ ∀ t ∈ u.rest, T t) (fun _ u => ∀ t ∈ u.rest, T t)

theorem draws_pure {a : α} (h : P a) : Draws T P (pure a : Reading α) :=
  fun _ hs => ⟨h, hs⟩

theorem Draws.bind {p : Reading α} {f : α → Reading β} (hp : Draws T P p) (hf : ∀ a, P a → Draws T Q (f a)) :
    Draws T Q (p >>= f) :=
  fun s hs => (hp s hs).bind fun a u hu => hf a hu.1 u hu.2

theorem Draws.map {p : Reading α} {g : α → β} (hp : Draws T P p) (hg : ∀ a, P a → Q (g a)) : Draws T Q (g <$> p) :=
  hp.bind fun a ha => draws_pure (hg a ha)

theorem draws_abandon (problem : Problem) : Draws T P (abandon problem : Reading α) :=
  fun _ hs => hs

theorem draws_check (p : Kind → Bool) : Draws T (fun _ => True) (check p) :=
  fun _ hs => ⟨trivial, hs⟩

theorem draws_limitCount (count : Nat) (what : String) : Draws T (fun _ => True) (limitCount count what) := by
  intro s hs
  unfold limitCount
  split <;> exact ⟨trivial, hs⟩

/-- A token that is consumed is one of those that were left. -/
theorem draws_accept? (p : Kind → Bool) : Draws T (fun r => ∀ t ∈ r, T t ∧ p t.kind = true) (accept? p) := by
  intro s hs
  cases haccept : accept? p s with
  | ok r u =>
    cases r with
    | none =>
      rw [eq_of_accept?_none haccept]
      exact ⟨fun t ht => absurd ht (Option.not_mem_none t), hs⟩
    | some x =>
      obtain ⟨ts, hrest, hx, rfl⟩ := rest_of_accept?_some haccept
      rw [hrest] at hs
      refine ⟨?_, fun t ht => hs t (List.mem_cons_of_mem x ((Cursor.consume_rest_suffix s x ts).subset ht))⟩
      intro t ht
      obtain rfl := Option.mem_some.1 ht
      exact ⟨hs x List.mem_cons_self, hx⟩
  | error e u => exact absurd haccept accept?_ne_error

/-- Accepting a token, with what follows in either case. -/
theorem draws_accept?_bind {p : Kind → Bool} {f : Option Token → Reading β} (hnone : Draws T Q (f none))
    (hsome : ∀ t, T t → p t.kind = true → Draws T Q (f (some t))) : Draws T Q (accept? p >>= f) := by
  refine (draws_accept? p).bind fun r hr => ?_
  cases r with
  | none => exact hnone
  | some t => exact hsome t (hr t rfl).1 (hr t rfl).2

theorem draws_expect (kind : Kind) (what : String) : Draws T (fun t => T t ∧ t.kind = kind) (expect kind what) :=
  draws_accept?_bind (draws_abandon _) fun _ ht hkind => draws_pure ⟨ht, eq_of_beq hkind⟩

theorem Draws.recovering {p : Reading α} (hp : Draws T P p) {fallback : α} (h : P fallback) :
    Draws T P (recovering p fallback) := by
  intro s hs
  unfold Reading.recovering
  split
  · next a u hu => exact (hp s hs).value_of_ok hu
  · next e u hu =>
    have hrest := (hp s hs).fault_of_error hu
    exact ⟨h, fun t ht => hrest t ((Cursor.leads_recover u).rest.subset ht)⟩

/-! ## Lines and blocks -/

theorem draws_beginLine : Draws T (fun _ => True) beginLine := by
  intro s hs
  have hmoved : ∀ t ∈ (lineRun s.rest).2, T t := fun t ht => hs t ((lineRun_snd_suffix s.rest).subset ht)
  unfold beginLine
  simp only
  split
  · exact ⟨trivial, hmoved⟩
  · exact hmoved

theorem draws_endStatement : Draws T (fun _ => True) endStatement := by
  intro s hs
  unfold endStatement
  split
  · exact ⟨trivial, hs⟩
  · split
    · exact hs
    · exact ⟨trivial, hs⟩

theorem Draws.items {item : Reading (Option α)} (hitem : Draws T (fun r => ∀ a ∈ r, P a) item) (fuel : Nat) :
    Draws T (fun as => ∀ a ∈ as, P a) (items item fuel) := by
  induction fuel with
  | zero => exact draws_pure (by simp)
  | succ fuel ih =>
    intro s hs
    unfold Reading.items
    simp only
    split
    · exact ⟨by simp, hs⟩
    · refine hitem.bind (fun first hfirst => ih.bind fun more hmore => draws_pure ?_) s hs
      intro a ha
      rcases List.mem_append.1 ha with ha | ha
      · exact hfirst a (Option.mem_toList.1 ha)
      · exact hmore a ha

theorem Draws.within {p : Reading α} (hp : Draws T P p) (inner : Layout) : Draws T P (within inner p) := by
  intro s hs
  have hinner := hp { s with layout := inner } hs
  unfold Reading.within
  split
  · next a u hu =>
    have hbehind := hinner.value_of_ok hu
    exact ⟨hbehind.1, hbehind.2⟩
  · next e u hu =>
    have hbehind := hinner.fault_of_error hu
    exact hbehind

theorem Draws.indented {item : Reading (Option α)} (hitem : Draws T (fun r => ∀ a ∈ r, P a) item) (fuel : Nat) :
    Draws T (fun as => ∀ a ∈ as, P a) (indented fuel item) := by
  intro s hs
  unfold Reading.indented
  simp only
  split
  · exact hs
  · exact (hitem.items fuel).within _ s hs

theorem draws_acceptElse : Draws T (fun _ => True) acceptElse := by
  intro s hs
  have hsuffix := lineRun_snd_suffix s.rest
  unfold acceptElse
  simp only
  split
  · exact ⟨trivial, hs⟩
  · next t ts hrun =>
    rw [hrun] at hsuffix
    split
    · exact ⟨trivial, fun x hx => hs x (hsuffix.subset (List.mem_cons_of_mem t hx))⟩
    · exact ⟨trivial, hs⟩

/-! ## Expressions -/

section Expressions

variable {e operand : Reading (Expr Unit)}

theorem Draws.joinFrom (hop : Draws T (Expr.Drawn T) operand) (tier : Tier) (fuel : Nat) {left : Expr Unit}
    (hleft : left.Drawn T) : Draws T (Expr.Drawn T) (joinFrom tier operand fuel left) := by
  induction fuel generalizing left with
  | zero => exact draws_pure hleft
  | succ fuel ih =>
    refine draws_accept?_bind (draws_pure hleft) fun operator ho _ => ?_
    exact hop.bind fun right hright => ih (Expr.drawn_join tier hleft ho hright)

theorem Draws.signed (hop : Draws T (Expr.Drawn T) operand) (fuel : Nat) :
    Draws T (Expr.Drawn T) (signed operand fuel) := by
  induction fuel with
  | zero => exact hop
  | succ fuel ih => exact draws_accept?_bind hop fun operator ho _ => ih.map fun a ha => ⟨ho, ha⟩

theorem Draws.argumentsFrom (he : Draws T (Expr.Drawn T) e) (fuel : Nat) {read : List (Expr Unit)}
    (hread : Expr.DrawnAll T read) : Draws T (Expr.DrawnAll T) (argumentsFrom e fuel read) := by
  induction fuel generalizing read with
  | zero => exact draws_abandon _
  | succ fuel ih =>
    refine (draws_limitCount _ _).bind fun _ _ => he.bind fun argument hargument => ?_
    have hmore := Expr.drawnAll_concat hread hargument
    exact draws_accept?_bind (draws_pure hmore) fun comma _ _ => ih hmore

theorem Draws.argumentList (he : Draws T (Expr.Drawn T) e) (fuel : Nat) :
    Draws T (Expr.DrawnAll T) (argumentList e fuel) := by
  refine (draws_check _).bind fun closed _ => ?_
  cases closed with
  | true => exact draws_pure trivial
  | false => exact he.argumentsFrom fuel trivial

theorem Draws.finishCall (he : Draws T (Expr.Drawn T) e) (fuel : Nat) {callee : Expr Unit} (hcallee : callee.Drawn T) :
    Draws T (Expr.Drawn T) (finishCall e fuel callee) :=
  (he.argumentList fuel).bind fun _ harguments => (draws_expect _ _).bind fun _ hparen =>
    draws_pure ⟨hcallee, hparen.1, harguments⟩

theorem Draws.suffixesFrom (he : Draws T (Expr.Drawn T) e) (limit fuel : Nat) {left : Expr Unit}
    (hleft : left.Drawn T) : Draws T (Expr.Drawn T) (suffixesFrom e limit fuel left) := by
  induction fuel generalizing left with
  | zero => exact draws_pure hleft
  | succ fuel ih =>
    refine draws_accept?_bind ?_ fun paren _ _ => (he.finishCall limit hleft).bind fun call hcall => ih hcall
    refine draws_accept?_bind (draws_pure hleft) fun dot _ _ => ?_
    exact (draws_expect _ _).bind fun field hfield => ih ⟨hleft, hfield⟩

theorem Draws.primaryFrom (he : Draws T (Expr.Drawn T) e) {t : Token} (ht : T t) :
    Draws T (Expr.Drawn T) (primaryFrom e t) := by
  unfold Reading.primaryFrom
  split
  · exact (draws_expect _ _).bind fun _ _ => (draws_expect _ _).bind fun _ hmethod => draws_pure ⟨ht, hmethod⟩
  · exact draws_pure ht
  · next hkind => exact draws_pure ⟨ht, hkind⟩
  · exact he.bind fun _ hinner => (draws_expect _ _).bind fun _ _ => draws_pure hinner
  · exact draws_pure trivial

theorem Draws.primary (he : Draws T (Expr.Drawn T) e) : Draws T (Expr.Drawn T) (primary e) :=
  draws_accept?_bind (draws_abandon _) fun _ ht _ => he.primaryFrom ht

theorem Draws.postfixed (he : Draws T (Expr.Drawn T) e) (fuel : Nat) : Draws T (Expr.Drawn T) (postfixed e fuel) :=
  he.primary.bind fun _ hfirst => he.suffixesFrom fuel fuel hfirst

theorem Draws.levels (he : Draws T (Expr.Drawn T) e) (fuel : Nat) (tiers : List Tier) :
    Draws T (Expr.Drawn T) (levels fuel e tiers) := by
  induction tiers with
  | nil => exact (he.postfixed fuel).signed fuel
  | cons tier more ih => exact ih.bind fun _ hfirst => ih.joinFrom tier fuel hfirst

end Expressions

theorem draws_expression (fuel : Nat) : Draws T (Expr.Drawn T) (expression fuel) := by
  induction fuel with
  | zero => exact draws_abandon _
  | succ fuel ih => exact Draws.levels ih (fuel + 1) tiers

/-! ## Statements -/

section Statements

variable {item : Reading (Stmt Unit)}

theorem Draws.block (hitem : Draws T (Stmt.Drawn T) item) (fuel : Nat) :
    Draws T (Stmt.DrawnAll T) (block fuel item) := by
  have hlines : Draws T (fun r => ∀ s ∈ r, Stmt.Drawn T s) (some <$> item) :=
    hitem.map fun s hs t ht => by
      obtain rfl := Option.mem_some.1 ht
      exact hs
  intro s hs
  exact (hlines.indented fuel s hs).mono (fun _ _ h => ⟨Stmt.drawnAll_iff.2 h.1, h.2⟩) fun _ _ h => h

theorem draws_paramsFrom (fuel : Nat) {read : List Token} (hread : ∀ t ∈ read, t.Names T) :
    Draws T (fun params => ∀ t ∈ params, t.Names T) (paramsFrom fuel read) := by
  induction fuel generalizing read with
  | zero => exact draws_abandon _
  | succ fuel ih =>
    refine (draws_limitCount _ _).bind fun _ _ => (draws_expect _ _).bind fun param hparam => ?_
    have hmore : ∀ t ∈ read ++ [param], t.Names T := by
      intro t ht
      rcases List.mem_append.1 ht with ht | ht
      · exact hread t ht
      · rw [List.mem_singleton.1 ht]
        exact hparam
    exact draws_accept?_bind (draws_pure hmore) fun comma _ _ => ih hmore

theorem draws_enclosedParams (fuel : Nat) (what : String) :
    Draws T (fun params => ∀ t ∈ params, t.Names T) (enclosedParams fuel what) := by
  have hlist : Draws T (fun params => ∀ t ∈ params, t.Names T) (paramList fuel) := by
    refine (draws_check _).bind fun closed _ => ?_
    cases closed with
    | true => exact draws_pure (by simp)
    | false => exact draws_paramsFrom fuel (by simp)
  exact (draws_expect _ _).bind fun _ _ => hlist.bind fun _ hparams => (draws_expect _ _).bind fun _ _ =>
    draws_pure hparams

theorem draws_returnType : Draws T (fun type => ∀ t ∈ type, T t) returnType := by
  refine draws_accept?_bind (draws_pure fun t ht => absurd ht (Option.not_mem_none t)) fun colons _ _ => ?_
  refine draws_accept?_bind (draws_abandon _) fun t ht _ => draws_pure ?_
  rintro u ⟨⟩
  exact ht

theorem Draws.routine (hitem : Draws T (Stmt.Drawn T) item) (fuel : Nat) (what : String) :
    Draws T (Routine.Drawn T) (routine fuel item what) := by
  refine (draws_expect _ _).bind fun name hname => (draws_enclosedParams fuel what).bind fun params hparams => ?_
  refine draws_returnType.bind fun type htype => (draws_expect _ _).bind fun _ _ => ?_
  exact (hitem.block fuel).bind fun body hbody => draws_pure ⟨hname, hparams, hbody, htype⟩

theorem Draws.method (hitem : Draws T (Stmt.Drawn T) item) (fuel : Nat) :
    Draws T (fun m => ∀ r ∈ m, Routine.Drawn T r) (method fuel item) := by
  refine Draws.recovering (Draws.map (P := Routine.Drawn T) ?_ ?_) nofun
  · exact draws_beginLine.bind fun _ _ => (draws_expect _ _).bind fun _ _ => hitem.routine fuel "method"
  · rintro r hr _ ⟨⟩
    exact hr

theorem draws_superclass : Draws T (fun parent => ∀ p ∈ parent, p.1.Names T) superclass := by
  refine draws_accept?_bind (draws_pure fun t ht => absurd ht (Option.not_mem_none t)) fun colons _ _ => ?_
  refine (draws_expect _ _).map fun t ht => ?_
  rintro p ⟨⟩
  exact ht

theorem Draws.classDef (hitem : Draws T (Stmt.Drawn T) item) (fuel : Nat) :
    Draws T (Stmt.Drawn T) (classDef fuel item) := by
  refine (draws_expect _ _).bind fun name hname => draws_superclass.bind fun parent hparent => ?_
  refine (draws_expect _ _).bind fun _ _ => ((hitem.method fuel).indented fuel).bind fun methods hmethods => ?_
  exact draws_pure ⟨hname, hparent, Routine.drawnAll_iff.2 hmethods⟩

theorem draws_assignTo {target value : Expr Unit} (htarget : target.Drawn T) (mark : Token) (hvalue : value.Drawn T) :
    Draws T (Stmt.Drawn T) (assignTo target mark value) := by
  unfold assignTo
  split
  · refine draws_pure ⟨htarget, ?_⟩
    rintro e ⟨⟩
    exact hvalue
  · exact draws_pure ⟨htarget.1, htarget.2, hvalue⟩
  · have hcomplain : Draws T (fun _ => True) (modify fun s => s.complain mark .assignmentTarget : Reading Unit) :=
      fun _ hs => ⟨trivial, hs⟩
    exact hcomplain.bind fun _ _ => draws_pure htarget

theorem draws_assignment (fuel : Nat) : Draws T (Stmt.Drawn T) (assignment fuel) := by
  refine (draws_expression fuel).bind fun target htarget => ?_
  refine draws_accept?_bind (draws_pure htarget) fun mark _ _ => ?_
  exact (draws_expression fuel).bind fun value hvalue => draws_assignTo htarget mark hvalue

theorem draws_givenBack (fuel : Nat) {keyword : Token} (hkeyword : T keyword) :
    Draws T (Stmt.Drawn T) (givenBack fuel keyword) := by
  have hget : Draws T (fun _ => True) (get : Reading Cursor) := fun _ hs => ⟨trivial, hs⟩
  refine hget.bind fun s _ => ?_
  split
  · refine (draws_expression fuel).map fun e he => ⟨hkeyword, ?_⟩
    rintro _ ⟨⟩
    exact he
  · exact draws_pure ⟨hkeyword, nofun⟩

theorem Draws.otherwise {next : Reading (Stmt Unit)} (hitem : Draws T (Stmt.Drawn T) item)
    (hnext : Draws T (Stmt.Drawn T) next) (limit : Nat) :
    Draws T (fun other => ∀ s ∈ other, Stmt.Drawn T s) (otherwise limit item next) := by
  have halternative : Draws T (Stmt.Drawn T) (alternative limit item next) := by
    refine draws_accept?_bind ?_ fun word _ _ => hnext
    exact (draws_expect _ _).bind fun _ _ => (hitem.block limit).map fun body hbody => hbody
  refine draws_acceptElse.bind fun found _ => ?_
  cases found with
  | false => exact draws_pure nofun
  | true =>
    refine halternative.map fun s hs => ?_
    rintro _ ⟨⟩
    exact hs

theorem Draws.branch (hitem : Draws T (Stmt.Drawn T) item) (limit fuel : Nat) :
    Draws T (Stmt.Drawn T) (branch limit item fuel) := by
  induction fuel with
  | zero => exact draws_abandon _
  | succ fuel ih =>
    refine (draws_expression limit).bind fun condition hcondition => (draws_expect _ _).bind fun _ _ => ?_
    refine (hitem.block limit).bind fun whenTrue hwhenTrue => (hitem.otherwise ih limit).bind fun whenFalse hother => ?_
    cases whenFalse with
    | none => exact draws_pure ⟨hcondition, hwhenTrue⟩
    | some s => exact draws_pure ⟨hcondition, hwhenTrue, hother s rfl⟩

theorem Draws.loop (hitem : Draws T (Stmt.Drawn T) item) (fuel : Nat) : Draws T (Stmt.Drawn T) (loop fuel item) := by
  refine (draws_expression fuel).bind fun condition hcondition => (draws_expect _ _).bind fun _ _ => ?_
  exact (hitem.block fuel).bind fun body hbody => draws_pure ⟨hcondition, hbody⟩

theorem Draws.statementFrom (hitem : Draws T (Stmt.Drawn T) item) (fuel : Nat) {t : Token} (ht : T t) :
    Draws T (Stmt.Drawn T) (statementFrom fuel item t) := by
  unfold Reading.statementFrom
  split
  · exact hitem.classDef fuel
  · exact (hitem.routine fuel "function").map fun r hr => hr
  · exact hitem.branch fuel fuel
  · exact (draws_expression fuel).map fun e he => he
  · exact draws_givenBack fuel ht
  · exact hitem.loop fuel
  · exact (hitem.block fuel).map fun body hbody => hbody
  · exact draws_assignment fuel

theorem Draws.statementLine (hitem : Draws T (Stmt.Drawn T) item) (fuel : Nat) :
    Draws T (Stmt.Drawn T) (statementLine fuel item) := by
  have hstatement : Draws T (Stmt.Drawn T) (statement fuel item) :=
    draws_accept?_bind (draws_assignment fuel) fun t ht _ => hitem.statementFrom fuel ht
  exact draws_beginLine.bind fun _ _ => hstatement.bind fun _ hstmt => draws_endStatement.bind fun _ _ =>
    draws_pure hstmt

end Statements

theorem draws_declaration (fuel : Nat) : Draws T (Stmt.Drawn T) (declaration fuel) := by
  induction fuel with
  | zero => exact draws_pure trivial
  | succ fuel ih => exact (Draws.statementLine ih (fuel + 1)).recovering trivial

end Reading

/-! ## Texts -/

/-- **A tree is made of the tokens of its text**, whatever errors were found on the way. -/
theorem Program.drawn_of_read (argumentLimit : Nat) (stream : Token.Stream) :
    Stmt.DrawnAll (· ∈ stream.tokens) (Program.read argumentLimit stream).statements := by
  have hlines : Reading.Draws (· ∈ stream.tokens) (fun r => ∀ s ∈ r, Stmt.Drawn (· ∈ stream.tokens) s)
      (some <$> Reading.declaration stream.tokens.length) :=
    Reading.Draws.map (Reading.draws_declaration stream.tokens.length) fun s hs t ht => by
      obtain rfl := Option.mem_some.1 ht
      exact hs
  have hends := hlines.items stream.tokens.length (.start argumentLimit stream) fun t ht => ht
  unfold Program.read
  split
  · next statements s hread => exact Stmt.drawnAll_iff.2 (hends.value_of_ok hread).1
  · exact trivial

end Offside
