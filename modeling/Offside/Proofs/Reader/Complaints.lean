import Offside.Proofs.Reader.Forward

/-!
# What reading complains about

Reading reports problems of the grammar alone, each at a token of the text or at its end, from every cursor
and however the steps end.  `T` stands for the tokens of the text with the end mark.

* `Report.Cites` — a report of such a problem;
* `Cursor.Cites` — a cursor over such tokens, with such reports;
* `Reading.Cites` — a step that keeps this so, with one lemma for each step of the reader;
* `Program.cites_of_read` — the reports of a whole text.
-/

set_option autoImplicit false

namespace Offside

open Token (Kind)

/-! ## Reports and cursors -/

/-- The problems that are found while statements are read. -/
def Problem.isGrammatical : Problem → Bool
  | .expected _ | .mixedIndentation | .indentationUnit _ | .indentation _ _ | .tooMany _ _
  | .assignmentTarget => true
  | _ => false

/-- A report of a problem of the grammar at one of the tokens `T`. -/
def Report.Cites (T : Token → Prop) (r : Report) : Prop :=
  ∃ t problem, T t ∧ problem.isGrammatical = true ∧ r = Report.atToken t problem

/-- The tokens that are left are among `T`, and so are those that the reports are about. -/
structure Cursor.Cites (T : Token → Prop) (s : Cursor) : Prop where
  rest : ∀ t ∈ s.rest, T t
  ending : T (.atEnd s.endLine)
  reports : ∀ r ∈ s.reports, r.Cites T

theorem Layout.isGrammatical_of_enter? {l : Layout} {run : List Token} {problem : Problem}
    (h : l.enter? run = .error problem) : problem.isGrammatical = true := by
  unfold enter? at h
  repeat' split at h
  all_goals first | (cases h; rfl) | cases h

theorem Layout.isGrammatical_misfit (l : Layout) (run : List Token) :
    (l.misfit run).isGrammatical = true := by
  unfold misfit
  split <;> rfl

namespace Cursor

variable {T : Token → Prop} {s t : Cursor}

theorem Cites.firstOf (h : s.Cites T) {tokens : List Token} (htokens : tokens <:+ s.rest) :
    T (s.firstOf tokens) := by
  cases tokens with
  | nil => exact h.ending
  | cons x xs => exact h.rest x (htokens.subset List.mem_cons_self)

theorem Cites.current (h : s.Cites T) : T s.current :=
  h.firstOf (List.suffix_refl _)

theorem Cites.complain (h : s.Cites T) {x : Token} {problem : Problem} (hx : T x)
    (hproblem : problem.isGrammatical = true) : (s.complain x problem).Cites T := by
  refine ⟨h.rest, h.ending, fun r hr => ?_⟩
  rcases List.mem_append.1 hr with hr | hr
  · exact h.reports r hr
  · exact ⟨x, problem, hx, hproblem, List.mem_singleton.1 hr⟩

/-- Going forward without a further report. -/
theorem Cites.forward (h : s.Cites T) (hst : s.Leads t) (hreports : t.reports = s.reports) : t.Cites T :=
  ⟨fun x hx => h.rest x (hst.rest.subset hx), hst.endLine ▸ h.ending, hreports ▸ h.reports⟩

end Cursor

/-! ## Steps -/

namespace Reading

open Step

variable {α β : Type} {T : Token → Prop}

/-- However the step ends, its reports are about problems of the grammar at the tokens `T`. -/
def Cites (T : Token → Prop) (p : Reading α) : Prop :=
  ∀ s : Cursor, s.Cites T → Ends (p s) (fun _ t => t.Cites T) (fun _ t => t.Cites T)

theorem cites_pure (a : α) : Cites T (pure a : Reading α) :=
  fun _ h => h

theorem Cites.bind {p : Reading α} {f : α → Reading β} (hp : Cites T p) (hf : ∀ a, Cites T (f a)) :
    Cites T (p >>= f) :=
  fun s h => (hp s h).bind fun a t ht => hf a t ht

theorem Cites.map {p : Reading α} (g : α → β) (hp : Cites T p) : Cites T (g <$> p) :=
  hp.bind fun a => cites_pure (g a)

theorem cites_abandon {problem : Problem} (hproblem : problem.isGrammatical = true) :
    Cites T (abandon problem : Reading α) :=
  fun _ h => h.complain h.current hproblem

theorem cites_check (p : Kind → Bool) : Cites T (check p) :=
  fun _ h => h

/-- A token that is accepted is one of the tokens. -/
theorem ends_accept? (p : Kind → Bool) {s : Cursor} (h : s.Cites T) :
    Ends (accept? p s) (fun r t => t.Cites T ∧ ∀ x ∈ r, T x) (fun _ t => t.Cites T) := by
  cases haccept : accept? p s with
  | ok r u =>
    cases r with
    | none =>
      rw [eq_of_accept?_none haccept]
      exact ⟨h, fun x hx => absurd hx (Option.not_mem_none x)⟩
    | some x =>
      obtain ⟨ts, hs, -, rfl⟩ := rest_of_accept?_some haccept
      refine ⟨h.forward (Cursor.leads_consume hs) rfl, fun y hy => ?_⟩
      obtain rfl : x = y := Option.mem_some.1 hy
      exact h.rest x (hs ▸ List.mem_cons_self)
  | error e u => exact absurd haccept accept?_ne_error

theorem cites_accept? (p : Kind → Bool) : Cites T (accept? p) :=
  fun _ h => (ends_accept? p h).mono (fun _ _ ht => ht.1) fun _ _ ht => ht

theorem cites_limitCount (count : Nat) (what : String) : Cites T (limitCount count what) := by
  intro s h
  unfold limitCount
  split
  · exact h.complain h.current rfl
  · exact h

theorem cites_expect (kind : Kind) (what : String) : Cites T (expect kind what) := by
  refine (cites_accept? _).bind fun r => ?_
  cases r with
  | none => exact cites_abandon rfl
  | some t => exact cites_pure t

theorem Cites.recovering {p : Reading α} (hp : Cites T p) (fallback : α) :
    Cites T (recovering p fallback) := by
  intro s h
  unfold Reading.recovering
  split
  · rename_i a t ht
    exact (hp s h).value_of_ok ht
  · rename_i e t ht
    have hrecover : t.recover.reports = t.reports := by
      unfold Cursor.recover
      split <;> rfl
    exact ((hp s h).fault_of_error ht).forward (Cursor.leads_recover t) hrecover

/-! ## Lines and blocks -/

theorem cites_beginLine : Cites T beginLine := by
  intro s h
  have hmoved : ({ s with rest := (lineRun s.rest).2 } : Cursor).Cites T :=
    ⟨fun t ht => h.rest t ((lineRun_snd_suffix s.rest).subset ht), h.ending, h.reports⟩
  unfold beginLine
  simp only
  split
  · exact hmoved
  · exact hmoved.complain hmoved.current (s.layout.isGrammatical_misfit _)

theorem cites_endStatement : Cites T endStatement := by
  intro s h
  unfold endStatement
  split
  · exact h
  · rename_i t ts hs
    split
    · exact h.complain (h.rest t (hs ▸ List.mem_cons_self)) rfl
    · exact h

theorem Cites.items {item : Reading (Option α)} (hitem : Cites T item) (fuel : Nat) :
    Cites T (items item fuel) := by
  induction fuel with
  | zero => exact cites_pure []
  | succ fuel ih =>
    intro s h
    unfold Reading.items
    simp only
    split
    · exact h
    · exact hitem.bind (fun first => ih.bind fun more => cites_pure _) s h

theorem Cites.within {p : Reading α} (hp : Cites T p) (inner : Layout) : Cites T (within inner p) := by
  intro s h
  have hinner := hp { s with layout := inner } ⟨h.rest, h.ending, h.reports⟩
  unfold Reading.within
  split
  · rename_i a t ht
    have ht := hinner.value_of_ok ht
    exact ⟨ht.rest, ht.ending, ht.reports⟩
  · rename_i e t ht
    have ht := hinner.fault_of_error ht
    exact ⟨ht.rest, ht.ending, ht.reports⟩

theorem Cites.indented {item : Reading (Option α)} (hitem : Cites T item) (fuel : Nat) :
    Cites T (indented fuel item) := by
  intro s h
  unfold Reading.indented
  simp only
  split
  · rename_i problem henter
    exact h.complain (h.firstOf (lineRun_snd_suffix s.rest)) (Layout.isGrammatical_of_enter? henter)
  · exact (hitem.items fuel).within _ s h

theorem cites_acceptElse : Cites T acceptElse := by
  intro s h
  have hsuffix := lineRun_snd_suffix s.rest
  unfold acceptElse
  simp only
  split
  · exact h
  · rename_i t ts hrun
    rw [hrun] at hsuffix
    split
    · exact ⟨fun x hx => h.rest x (hsuffix.subset (List.mem_cons_of_mem t hx)), h.ending, h.reports⟩
    · exact h

/-! ## Expressions -/

section Expressions

variable {e operand : Reading (Expr Unit)}

theorem Cites.joinFrom (hop : Cites T operand) (tier : Tier) (fuel : Nat) (left : Expr Unit) :
    Cites T (joinFrom tier operand fuel left) := by
  induction fuel generalizing left with
  | zero => exact cites_pure left
  | succ fuel ih =>
    refine (cites_accept? tier.isOperator).bind fun r => ?_
    cases r with
    | none => exact cites_pure left
    | some operator => exact hop.bind fun right => ih _

theorem Cites.leftAssociative (hop : Cites T operand) (tier : Tier) (fuel : Nat) :
    Cites T (leftAssociative tier fuel operand) :=
  hop.bind fun first => hop.joinFrom tier fuel first

theorem Cites.signed (hop : Cites T operand) (fuel : Nat) : Cites T (signed operand fuel) := by
  induction fuel with
  | zero => exact hop
  | succ fuel ih =>
    refine (cites_accept? isSign).bind fun r => ?_
    cases r with
    | none => exact hop
    | some operator => exact ih.map (Expr.unary operator)

theorem Cites.argumentsFrom (he : Cites T e) (fuel : Nat) (read : List (Expr Unit)) :
    Cites T (argumentsFrom e fuel read) := by
  induction fuel generalizing read with
  | zero => exact cites_abandon rfl
  | succ fuel ih =>
    refine (cites_limitCount _ _).bind fun _ => he.bind fun argument => ?_
    refine (cites_accept? _).bind fun r => ?_
    cases r with
    | none => exact cites_pure _
    | some comma => exact ih _

theorem Cites.argumentList (he : Cites T e) (fuel : Nat) : Cites T (argumentList e fuel) := by
  refine (cites_check _).bind fun closed => ?_
  cases closed with
  | true => exact cites_pure []
  | false => exact he.argumentsFrom fuel []

theorem Cites.finishCall (he : Cites T e) (fuel : Nat) (callee : Expr Unit) :
    Cites T (finishCall e fuel callee) :=
  (he.argumentList fuel).bind fun _ => (cites_expect _ _).bind fun _ => cites_pure _

theorem Cites.suffixesFrom (he : Cites T e) (limit fuel : Nat) (left : Expr Unit) :
    Cites T (suffixesFrom e limit fuel left) := by
  induction fuel generalizing left with
  | zero => exact cites_pure left
  | succ fuel ih =>
    refine (cites_accept? _).bind fun r => ?_
    cases r with
    | some paren => exact (he.finishCall limit left).bind fun call => ih call
    | none =>
      refine (cites_accept? _).bind fun r => ?_
      cases r with
      | some dot => exact (cites_expect _ _).bind fun field => ih _
      | none => exact cites_pure left

theorem Cites.primaryFrom (he : Cites T e) (t : Token) : Cites T (primaryFrom e t) := by
  unfold Reading.primaryFrom
  split
  · exact (cites_expect _ _).bind fun _ => (cites_expect _ _).bind fun _ => cites_pure _
  · exact cites_pure _
  · exact cites_pure _
  · exact he.bind fun _ => (cites_expect _ _).bind fun _ => cites_pure _
  · exact cites_pure _

theorem Cites.primary (he : Cites T e) : Cites T (primary e) := by
  refine (cites_accept? startsPrimary).bind fun r => ?_
  cases r with
  | none => exact cites_abandon rfl
  | some t => exact he.primaryFrom t

theorem Cites.postfixed (he : Cites T e) (fuel : Nat) : Cites T (postfixed e fuel) :=
  he.primary.bind fun first => he.suffixesFrom fuel fuel first

theorem Cites.levels (he : Cites T e) (fuel : Nat) (tiers : List Tier) : Cites T (levels fuel e tiers) := by
  induction tiers with
  | nil => exact (he.postfixed fuel).signed fuel
  | cons tier more ih => exact ih.leftAssociative tier fuel

end Expressions

theorem cites_expression (fuel : Nat) : Cites T (expression fuel) := by
  induction fuel with
  | zero => exact cites_abandon rfl
  | succ fuel ih => exact Cites.levels ih (fuel + 1) tiers

/-! ## Statements -/

section Statements

variable {item : Reading (Stmt Unit)}

theorem Cites.block (hitem : Cites T item) (fuel : Nat) : Cites T (block fuel item) :=
  (hitem.map some).indented fuel

theorem cites_paramsFrom (fuel : Nat) (read : List Token) : Cites T (paramsFrom fuel read) := by
  induction fuel generalizing read with
  | zero => exact cites_abandon rfl
  | succ fuel ih =>
    refine (cites_limitCount _ _).bind fun _ => (cites_expect _ _).bind fun param => ?_
    refine (cites_accept? _).bind fun r => ?_
    cases r with
    | none => exact cites_pure _
    | some comma => exact ih _

theorem cites_paramList (fuel : Nat) : Cites T (paramList fuel) := by
  refine (cites_check _).bind fun closed => ?_
  cases closed with
  | true => exact cites_pure []
  | false => exact cites_paramsFrom fuel []

theorem cites_enclosedParams (fuel : Nat) (what : String) : Cites T (enclosedParams fuel what) := by
  refine (cites_expect _ _).bind fun _ => (cites_paramList fuel).bind fun params => ?_
  exact (cites_expect _ _).bind fun _ => cites_pure params

theorem cites_returnType : Cites T returnType := by
  refine (cites_accept? _).bind fun r => ?_
  cases r with
  | none => exact cites_pure none
  | some colons =>
    refine (cites_accept? _).bind fun r => ?_
    cases r with
    | none => exact cites_abandon rfl
    | some t => exact cites_pure _

theorem Cites.routine (hitem : Cites T item) (fuel : Nat) (what : String) :
    Cites T (routine fuel item what) := by
  refine (cites_expect _ _).bind fun name => (cites_enclosedParams fuel what).bind fun params => ?_
  refine cites_returnType.bind fun type => (cites_expect _ _).bind fun _ => ?_
  exact (hitem.block fuel).bind fun body => cites_pure _

theorem Cites.method (hitem : Cites T item) (fuel : Nat) : Cites T (method fuel item) := by
  refine Cites.recovering (Cites.map some ?_) none
  exact cites_beginLine.bind fun _ => (cites_expect _ _).bind fun _ => hitem.routine fuel "method"

theorem cites_superclass : Cites T superclass := by
  refine (cites_accept? _).bind fun r => ?_
  cases r with
  | none => exact cites_pure none
  | some colons => exact (cites_expect _ _).map fun t => some (t, ())

theorem Cites.classDef (hitem : Cites T item) (fuel : Nat) : Cites T (classDef fuel item) := by
  refine (cites_expect _ _).bind fun name => cites_superclass.bind fun parent => ?_
  refine (cites_expect _ _).bind fun _ => ?_
  exact ((hitem.method fuel).indented fuel).bind fun methods => cites_pure _

theorem cites_assignTo (target : Expr Unit) {mark : Token} (hmark : T mark) (value : Expr Unit) :
    Cites T (assignTo target mark value) := by
  unfold assignTo
  split
  · exact cites_pure _
  · exact cites_pure _
  · exact Cites.bind (fun _ h => h.complain hmark rfl) fun _ => cites_pure _

/-- The word between target and value is reported on after it has been consumed, so it is remembered here that
it is one of the tokens. -/
theorem cites_assignmentFrom (fuel : Nat) (target : Expr Unit) : Cites T (assignmentFrom fuel target) := by
  intro s h
  refine (ends_accept? _ h).bind fun r u hu => ?_
  cases r with
  | none => exact hu.1
  | some mark =>
    have hmark : T mark := hu.2 mark rfl
    exact (cites_expression fuel).bind (fun value => cites_assignTo target hmark value) u hu.1

theorem cites_assignment (fuel : Nat) : Cites T (assignment fuel) :=
  (cites_expression fuel).bind fun target => cites_assignmentFrom fuel target

theorem cites_givenBack (fuel : Nat) (keyword : Token) : Cites T (givenBack fuel keyword) := by
  refine Cites.bind (fun _ h => h) fun s => ?_
  split
  · exact (cites_expression fuel).map fun e => Stmt.giveBack keyword (some e)
  · exact cites_pure _

theorem Cites.alternative {next : Reading (Stmt Unit)} (hitem : Cites T item) (hnext : Cites T next)
    (limit : Nat) : Cites T (alternative limit item next) := by
  refine (cites_accept? _).bind fun r => ?_
  cases r with
  | some word => exact hnext
  | none => exact (cites_expect _ _).bind fun _ => (hitem.block limit).map Stmt.block

theorem Cites.otherwise {next : Reading (Stmt Unit)} (hitem : Cites T item) (hnext : Cites T next)
    (limit : Nat) : Cites T (otherwise limit item next) := by
  refine cites_acceptElse.bind fun found => ?_
  cases found with
  | false => exact cites_pure none
  | true => exact (hitem.alternative hnext limit).map some

theorem Cites.branch (hitem : Cites T item) (limit fuel : Nat) : Cites T (branch limit item fuel) := by
  induction fuel with
  | zero => exact cites_abandon rfl
  | succ fuel ih =>
    refine (cites_expression limit).bind fun condition => (cites_expect _ _).bind fun _ => ?_
    refine (hitem.block limit).bind fun whenTrue => ?_
    exact (hitem.otherwise ih limit).bind fun whenFalse => cites_pure _

theorem Cites.loop (hitem : Cites T item) (fuel : Nat) : Cites T (loop fuel item) := by
  refine (cites_expression fuel).bind fun condition => (cites_expect _ _).bind fun _ => ?_
  exact (hitem.block fuel).bind fun body => cites_pure _

theorem Cites.statementFrom (hitem : Cites T item) (fuel : Nat) (t : Token) :
    Cites T (statementFrom fuel item t) := by
  unfold Reading.statementFrom
  split
  · exact hitem.classDef fuel
  · exact (hitem.routine fuel "function").map Stmt.define
  · exact hitem.branch fuel fuel
  · exact (cites_expression fuel).map Stmt.print
  · exact cites_givenBack fuel t
  · exact hitem.loop fuel
  · exact (hitem.block fuel).map Stmt.block
  · exact cites_assignment fuel

theorem Cites.statementLine (hitem : Cites T item) (fuel : Nat) : Cites T (statementLine fuel item) := by
  refine cites_beginLine.bind fun _ => Cites.bind ?_ fun stmt => cites_endStatement.bind fun _ => cites_pure stmt
  refine (cites_accept? introduces).bind fun r => ?_
  cases r with
  | none => exact cites_assignment fuel
  | some t => exact hitem.statementFrom fuel t

end Statements

theorem cites_declaration (fuel : Nat) : Cites T (declaration fuel) := by
  induction fuel with
  | zero => exact cites_pure _
  | succ fuel ih => exact (Cites.statementLine ih (fuel + 1)).recovering _

end Reading

/-! ## Texts -/

/-- Everything that is reported while a text is read is a problem of the grammar, at one of its tokens or at its
end. -/
theorem Program.cites_of_read {argumentLimit : Nat} {stream : Token.Stream} {r : Report}
    (hr : r ∈ (Program.read argumentLimit stream).reports) : r.Cites (· ∈ stream.toList) := by
  have hstart : (Cursor.start argumentLimit stream).Cites (· ∈ stream.toList) :=
    ⟨fun t ht => List.mem_append_left _ ht, List.mem_append_right _ (List.mem_singleton_self _),
      fun r hr => absurd hr List.not_mem_nil⟩
  have hprogram : Reading.Cites (· ∈ stream.toList) (Reading.program stream.tokens.length) :=
    ((Reading.cites_declaration _).map some).items _
  have hends := hprogram _ hstart
  unfold Program.read at hr
  split at hr
  · rename_i statements s hs
    exact (hends.value_of_ok hs).reports r hr
  · rename_i e s hs
    exact (hends.fault_of_error hs).reports r hr

end Offside
