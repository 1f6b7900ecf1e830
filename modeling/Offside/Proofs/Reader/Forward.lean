import Offside.Proofs.Layout
import Offside.Proofs.Steps
import Offside.Reader.Statement

/-!
# Reading moves forward

Whatever a step of reading does, the tokens that it leaves are an end of those that it found, the open
blocks are as before, and reports are only added; a step that is given up has added one.  All of this holds
from every cursor, whether or not the text is well formed.

* `Cursor.Leads` — one cursor comes after another in this sense;
* `Reading.Moves` — a step that only leads forward, with one lemma for each step of the reader;
* `Reading.Takes` — a step that consumes a token whenever it yields a value.
-/

set_option autoImplicit false

namespace Offside

open Token (Kind)

/-! ## Cursors -/

/-- Going on after an error skips tokens and nothing else. -/
theorem resume_suffix (last : Int) (ts : List Token) : (resume last ts).2 <:+ ts := by
  induction ts generalizing last with
  | nil => exact List.suffix_refl _
  | cons t ts ih =>
    have hskip : (resume t.line ts).2 <:+ t :: ts := (ih t.line).trans (List.suffix_cons t ts)
    unfold resume
    split
    · split
      · exact List.suffix_refl _
      · exact hskip
    · split
      · exact List.suffix_refl _
      · exact hskip

namespace Cursor

/-- The cursor `t` comes after `s`: it has the end of the tokens, the same open blocks and limits, and all
the reports. -/
structure Leads (s t : Cursor) : Prop where
  rest : t.rest <:+ s.rest
  endLine : t.endLine = s.endLine
  argumentLimit : t.argumentLimit = s.argumentLimit
  layout : t.layout = s.layout
  reports : s.reports <+: t.reports

/-- The cursor `t` comes after `s`, and something was reported on the way. -/
structure Fails (s t : Cursor) : Prop extends Leads s t where
  reported : s.reports.length < t.reports.length

namespace Leads

variable {s t u : Cursor}

theorem refl (s : Cursor) : Leads s s :=
  ⟨List.suffix_refl _, rfl, rfl, rfl, List.prefix_refl _⟩

theorem trans (h : Leads s t) (h' : Leads t u) : Leads s u :=
  ⟨h'.rest.trans h.rest, h'.endLine.trans h.endLine, h'.argumentLimit.trans h.argumentLimit,
    h'.layout.trans h.layout, h.reports.trans h'.reports⟩

theorem length_le (h : Leads s t) : t.rest.length ≤ s.rest.length :=
  h.rest.length_le

theorem fails (h : Leads s t) (h' : Fails t u) : Fails s u :=
  ⟨h.trans h'.toLeads, Nat.lt_of_le_of_lt h.reports.length_le h'.reported⟩

/-- If nothing was reported on the whole way, nothing was on its first part. -/
theorem silent (h : Leads s t) (h' : Leads t u) (hu : u.reports = s.reports) :
    t.reports = s.reports ∧ u.reports = t.reports := by
  have hle : t.reports.length ≤ s.reports.length := hu ▸ h'.reports.length_le
  have ht := h.reports.eq_of_length_le hle
  exact ⟨ht.symm, hu.trans ht⟩

end Leads

theorem leads_complain (s : Cursor) (t : Token) (problem : Problem) : Leads s (s.complain t problem) :=
  ⟨List.suffix_refl _, rfl, rfl, rfl, List.prefix_append _ _⟩

theorem fails_complain (s : Cursor) (t : Token) (problem : Problem) : Fails s (s.complain t problem) :=
  ⟨leads_complain s t problem, by simp [complain]⟩

theorem consume_rest_suffix (s : Cursor) (t : Token) (rest : List Token) :
    (s.consume t rest).rest <:+ rest := by
  unfold consume
  simp only
  split
  · exact List.suffix_refl _
  · exact List.dropWhile_suffix _

theorem leads_consume {s : Cursor} {t : Token} {rest : List Token} (h : s.rest = t :: rest) :
    Leads s (s.consume t rest) :=
  ⟨by rw [h]; exact (consume_rest_suffix s t rest).trans (List.suffix_cons t rest), rfl, rfl, rfl,
    List.prefix_refl _⟩

theorem length_consume_lt {s : Cursor} {t : Token} {rest : List Token} (h : s.rest = t :: rest) :
    (s.consume t rest).rest.length < s.rest.length := by
  have := (consume_rest_suffix s t rest).length_le
  rw [h, List.length_cons]
  omega

theorem leads_recover (s : Cursor) : Leads s s.recover := by
  unfold recover
  split
  · exact ⟨List.suffix_refl _, rfl, rfl, rfl, List.prefix_refl _⟩
  · rename_i t ts h
    refine ⟨?_, rfl, rfl, rfl, List.prefix_refl _⟩
    rw [h]
    exact (resume_suffix t.line ts).trans (List.suffix_cons t ts)

/-- Going on after an error passes a token unless there is none left. -/
theorem length_recover_lt {s : Cursor} (h : s.rest ≠ []) : s.recover.rest.length < s.rest.length := by
  unfold recover
  split
  · rename_i hs
    exact absurd hs h
  · rename_i t ts hs
    have := (resume_suffix t.line ts).length_le
    rw [hs, List.length_cons]
    show (resume t.line ts).2.length < ts.length + 1
    omega

end Cursor

/-! ## Steps that move forward -/

namespace Reading

open Step

variable {α β : Type}

/-- However the step ends, the cursor has only gone forward, and giving up has been reported. -/
def Moves (p : Reading α) : Prop :=
  ∀ s, Ends (p s) (fun _ t => s.Leads t) (fun _ t => s.Fails t)

/-- Whenever the step yields a value, it has consumed a token. -/
def Takes (p : Reading α) : Prop :=
  ∀ s a t, p s = .ok a t → t.rest.length < s.rest.length

theorem Moves.ok {p : Reading α} (hp : Moves p) {s t : Cursor} {a : α} (h : p s = .ok a t) :
    s.Leads t :=
  (hp s).value_of_ok h

theorem Moves.error {p : Reading α} (hp : Moves p) {s t : Cursor} {e : Abandoned}
    (h : p s = .error e t) : s.Fails t :=
  (hp s).fault_of_error h

theorem moves_pure (a : α) : Moves (pure a : Reading α) :=
  fun s => Cursor.Leads.refl s

theorem Moves.bind {p : Reading α} {f : α → Reading β} (hp : Moves p) (hf : ∀ a, Moves (f a)) :
    Moves (p >>= f) := by
  intro s
  cases h : p s with
  | ok a t =>
    rw [bind_of_ok h]
    have hst := hp.ok h
    exact (hf a t).mono (fun _ _ hu => hst.trans hu) (fun _ _ hu => hst.fails hu)
  | error e t =>
    rw [bind_of_error h]
    exact hp.error h

theorem Moves.map {p : Reading α} (g : α → β) (hp : Moves p) : Moves (g <$> p) :=
  hp.bind fun a => moves_pure (g a)

theorem moves_abandonAt (t : Token) (problem : Problem) : Moves (abandonAt t problem : Reading α) :=
  fun s => s.fails_complain t problem

theorem moves_abandon (problem : Problem) : Moves (abandon problem : Reading α) :=
  fun s => s.fails_complain s.current problem

theorem moves_check (p : Kind → Bool) : Moves (check p) :=
  fun s => Cursor.Leads.refl s

/-- What a successful `accept?` has consumed. -/
theorem rest_of_accept?_some {p : Kind → Bool} {s u : Cursor} {t : Token}
    (h : accept? p s = .ok (some t) u) :
    ∃ ts, s.rest = t :: ts ∧ p t.kind = true ∧ u = s.consume t ts := by
  unfold accept? at h
  split at h
  · cases h
  · rename_i t' ts hs
    split at h
    · rename_i hp
      cases h
      exact ⟨ts, hs, hp, rfl⟩
    · cases h

/-- `accept?` leaves the cursor alone when the token does not fit. -/
theorem eq_of_accept?_none {p : Kind → Bool} {s u : Cursor} (h : accept? p s = .ok none u) : u = s := by
  unfold accept? at h
  split at h
  · cases h; rfl
  · split at h
    · cases h
    · cases h; rfl

theorem accept?_of_nil {p : Kind → Bool} {s : Cursor} (h : s.rest = []) : accept? p s = .ok none s := by
  unfold accept?
  rw [h]

theorem accept?_ne_error {p : Kind → Bool} {s u : Cursor} {e : Abandoned} :
    accept? p s ≠ .error e u := by
  unfold accept?
  split
  · simp
  · split <;> simp

theorem moves_accept? (p : Kind → Bool) : Moves (accept? p) := by
  intro s
  cases h : accept? p s with
  | ok r u =>
    cases r with
    | none =>
      rw [eq_of_accept?_none h]
      exact Cursor.Leads.refl s
    | some t =>
      obtain ⟨ts, hs, -, rfl⟩ := rest_of_accept?_some h
      exact Cursor.leads_consume hs
  | error e u => exact absurd h accept?_ne_error

theorem moves_accept?_bind {p : Kind → Bool} {f : Option Token → Reading β} (hn : Moves (f none))
    (hs : ∀ t, Moves (f (some t))) : Moves (accept? p >>= f) := by
  refine (moves_accept? p).bind fun r => ?_
  cases r with
  | none => exact hn
  | some t => exact hs t

theorem length_lt_of_accept?_some {p : Kind → Bool} {s u : Cursor} {t : Token}
    (h : accept? p s = .ok (some t) u) : u.rest.length < s.rest.length := by
  obtain ⟨ts, hs, -, rfl⟩ := rest_of_accept?_some h
  exact Cursor.length_consume_lt hs

theorem moves_limitCount (count : Nat) (what : String) : Moves (limitCount count what) := by
  intro s
  unfold limitCount
  split
  · exact Cursor.leads_complain s _ _
  · exact Cursor.Leads.refl s

theorem Takes.bind_moves {p : Reading α} {f : α → Reading β} (hp : Takes p) (hf : ∀ a, Moves (f a)) :
    Takes (p >>= f) := by
  intro s b u h
  obtain ⟨a, t, h₁, h₂⟩ := ok_of_bind h
  exact Nat.lt_of_le_of_lt ((hf a).ok h₂).length_le (hp s a t h₁)

theorem Moves.bind_takes {p : Reading α} {f : α → Reading β} (hp : Moves p) (hf : ∀ a, Takes (f a)) :
    Takes (p >>= f) := by
  intro s b u h
  obtain ⟨a, t, h₁, h₂⟩ := ok_of_bind h
  exact Nat.lt_of_lt_of_le (hf a t b u h₂) (hp.ok h₁).length_le

theorem takes_abandon (problem : Problem) : Takes (abandon problem : Reading α) :=
  fun _ _ _ h => nomatch h

/-- A step that begins by accepting a token or not consumes one if it does so without that token. -/
theorem takes_accept?_bind {p : Kind → Bool} {f : Option Token → Reading β} (hn : Takes (f none))
    (hs : ∀ t, Moves (f (some t))) : Takes (accept? p >>= f) := by
  intro s b u h
  obtain ⟨r, t, h₁, h₂⟩ := ok_of_bind h
  cases r with
  | none =>
    rw [eq_of_accept?_none h₁] at h₂
    exact hn s b u h₂
  | some x => exact Nat.lt_of_le_of_lt ((hs x).ok h₂).length_le (length_lt_of_accept?_some h₁)

/-- What a successful `expect` has consumed. -/
theorem rest_of_expect {kind : Kind} {what : String} {s u : Cursor} {t : Token}
    (h : expect kind what s = .ok t u) : ∃ ts, s.rest = t :: ts ∧ t.kind = kind ∧ u = s.consume t ts := by
  obtain ⟨r, m, haccept, hr⟩ := ok_of_bind h
  cases r with
  | none => cases hr
  | some t' =>
    obtain ⟨rfl, rfl⟩ := ok_of_pure hr
    obtain ⟨ts, hrest, hkind, hu⟩ := rest_of_accept?_some haccept
    exact ⟨ts, hrest, eq_of_beq hkind, hu⟩

theorem moves_expect (kind : Kind) (what : String) : Moves (expect kind what) := by
  exact moves_accept?_bind (moves_abandon _) fun t => moves_pure t

theorem takes_expect (kind : Kind) (what : String) : Takes (expect kind what) :=
  takes_accept?_bind (takes_abandon _) fun t => moves_pure t

theorem Moves.recovering {p : Reading α} (hp : Moves p) (fallback : α) :
    Moves (recovering p fallback) := by
  intro s
  unfold Reading.recovering
  split
  · rename_i a t h
    exact hp.ok h
  · rename_i e t h
    exact (hp.error h).toLeads.trans (Cursor.leads_recover t)

/-! ## Lines and blocks -/

theorem moves_beginLine : Moves beginLine := by
  intro s
  have hmoved : s.Leads { s with rest := (lineRun s.rest).2 } :=
    ⟨lineRun_snd_suffix s.rest, rfl, rfl, rfl, List.prefix_refl _⟩
  unfold beginLine
  simp only
  split
  · exact hmoved
  · exact hmoved.fails (Cursor.fails_complain _ _ _)

theorem moves_endStatement : Moves endStatement := by
  intro s
  unfold endStatement
  split
  · exact Cursor.Leads.refl s
  · split
    · exact Cursor.fails_complain s _ _
    · exact Cursor.Leads.refl s

theorem Moves.items {item : Reading (Option α)} (hitem : Moves item) (fuel : Nat) :
    Moves (items item fuel) := by
  induction fuel with
  | zero => exact moves_pure []
  | succ fuel ih =>
    intro s
    unfold Reading.items
    simp only
    split
    · exact Cursor.Leads.refl s
    · exact hitem.bind (fun first => ih.bind fun more => moves_pure _) s

/-- Leaving a block restores the blocks that were open before, also when its reading is given up. -/
theorem Moves.within {p : Reading α} (hp : Moves p) (inner : Layout) : Moves (within inner p) := by
  intro s
  have h := hp { s with layout := inner }
  unfold Reading.within
  split
  · rename_i a t ht
    have hl := h.value_of_ok ht
    exact ⟨hl.rest, hl.endLine, hl.argumentLimit, rfl, hl.reports⟩
  · rename_i e t ht
    have hl := h.fault_of_error ht
    exact ⟨⟨hl.rest, hl.endLine, hl.argumentLimit, rfl, hl.reports⟩, hl.reported⟩

theorem Moves.indented {item : Reading (Option α)} (hitem : Moves item) (fuel : Nat) :
    Moves (indented fuel item) := by
  intro s
  unfold Reading.indented
  simp only
  split
  · exact moves_abandonAt _ _ s
  · exact (hitem.items fuel).within _ s

theorem moves_acceptElse : Moves acceptElse := by
  intro s
  unfold acceptElse
  simp only
  split
  · exact Cursor.Leads.refl s
  · rename_i t ts h
    split
    · refine ⟨?_, rfl, rfl, rfl, List.prefix_refl _⟩
      have hsuffix := lineRun_snd_suffix s.rest
      rw [h] at hsuffix
      exact (List.suffix_cons t ts).trans hsuffix
    · exact Cursor.Leads.refl s

/-! ## Expressions -/

section Expressions

variable {e operand : Reading (Expr Unit)}

theorem Moves.joinFrom (hop : Moves operand) (tier : Tier) (fuel : Nat) (left : Expr Unit) :
    Moves (joinFrom tier operand fuel left) := by
  induction fuel generalizing left with
  | zero => exact moves_pure left
  | succ fuel ih =>
    refine (moves_accept? tier.isOperator).bind fun r => ?_
    cases r with
    | none => exact moves_pure left
    | some operator => exact hop.bind fun right => ih _

theorem Moves.leftAssociative (hop : Moves operand) (tier : Tier) (fuel : Nat) :
    Moves (leftAssociative tier fuel operand) :=
  hop.bind fun first => hop.joinFrom tier fuel first

theorem Takes.leftAssociative (ht : Takes operand) (hop : Moves operand) (tier : Tier) (fuel : Nat) :
    Takes (leftAssociative tier fuel operand) :=
  ht.bind_moves fun first => hop.joinFrom tier fuel first

theorem Moves.signed (hop : Moves operand) (fuel : Nat) : Moves (signed operand fuel) := by
  induction fuel with
  | zero => exact hop
  | succ fuel ih =>
    refine (moves_accept? isSign).bind fun r => ?_
    cases r with
    | none => exact hop
    | some operator => exact ih.map (Expr.unary operator)

theorem Takes.signed (ht : Takes operand) (hop : Moves operand) (fuel : Nat) :
    Takes (signed operand fuel) := by
  cases fuel with
  | zero => exact ht
  | succ fuel => exact takes_accept?_bind ht fun operator => (hop.signed fuel).map (Expr.unary operator)

theorem Moves.argumentsFrom (he : Moves e) (fuel : Nat) (read : List (Expr Unit)) :
    Moves (argumentsFrom e fuel read) := by
  induction fuel generalizing read with
  | zero => exact moves_abandon _
  | succ fuel ih =>
    refine (moves_limitCount _ _).bind fun _ => he.bind fun argument => ?_
    exact moves_accept?_bind (moves_pure _) fun comma => ih _

theorem Moves.argumentList (he : Moves e) (fuel : Nat) : Moves (argumentList e fuel) := by
  refine (moves_check _).bind fun closed => ?_
  cases closed with
  | true => exact moves_pure []
  | false => exact he.argumentsFrom fuel []

theorem Moves.finishCall (he : Moves e) (fuel : Nat) (callee : Expr Unit) :
    Moves (finishCall e fuel callee) :=
  (he.argumentList fuel).bind fun _ => (moves_expect _ _).bind fun _ => moves_pure _

theorem Moves.suffixesFrom (he : Moves e) (limit fuel : Nat) (left : Expr Unit) :
    Moves (suffixesFrom e limit fuel left) := by
  induction fuel generalizing left with
  | zero => exact moves_pure left
  | succ fuel ih =>
    refine moves_accept?_bind ?_ fun paren => (he.finishCall limit left).bind fun call => ih call
    exact moves_accept?_bind (moves_pure left) fun dot => (moves_expect _ _).bind fun field => ih _

theorem Moves.primaryFrom (he : Moves e) (t : Token) : Moves (primaryFrom e t) := by
  unfold Reading.primaryFrom
  split
  · exact (moves_expect _ _).bind fun _ => (moves_expect _ _).bind fun _ => moves_pure _
  · exact moves_pure _
  · exact moves_pure _
  · exact he.bind fun _ => (moves_expect _ _).bind fun _ => moves_pure _
  · exact moves_pure _

theorem Moves.primary (he : Moves e) : Moves (primary e) := by
  refine (moves_accept? startsPrimary).bind fun r => ?_
  cases r with
  | none => exact moves_abandon _
  | some t => exact he.primaryFrom t

theorem takes_primary (he : Moves e) : Takes (primary e) :=
  takes_accept?_bind (takes_abandon _) fun t => he.primaryFrom t

theorem Moves.postfixed (he : Moves e) (fuel : Nat) : Moves (postfixed e fuel) :=
  he.primary.bind fun first => he.suffixesFrom fuel fuel first

theorem takes_postfixed (he : Moves e) (fuel : Nat) : Takes (postfixed e fuel) :=
  (takes_primary he).bind_moves fun first => he.suffixesFrom fuel fuel first

theorem Moves.levels (he : Moves e) (fuel : Nat) (T : List Tier) : Moves (levels fuel e T) := by
  induction T with
  | nil => exact (he.postfixed fuel).signed fuel
  | cons tier more ih => exact ih.leftAssociative tier fuel

theorem takes_levels (he : Moves e) (fuel : Nat) (T : List Tier) : Takes (levels fuel e T) := by
  induction T with
  | nil => exact (takes_postfixed he fuel).signed (he.postfixed fuel) fuel
  | cons tier more ih => exact ih.leftAssociative (he.levels fuel more) tier fuel

end Expressions

theorem moves_expression (fuel : Nat) : Moves (expression fuel) := by
  induction fuel with
  | zero => exact moves_abandon _
  | succ fuel ih => exact Moves.levels ih (fuel + 1) tiers

theorem takes_expression (fuel : Nat) : Takes (expression fuel) := by
  cases fuel with
  | zero => exact takes_abandon _
  | succ fuel => exact takes_levels (moves_expression fuel) (fuel + 1) tiers

/-! ## Statements -/

section Statements

variable {item : Reading (Stmt Unit)}

theorem Moves.block (hitem : Moves item) (fuel : Nat) : Moves (block fuel item) :=
  (hitem.map some).indented fuel

theorem moves_paramsFrom (fuel : Nat) (read : List Token) : Moves (paramsFrom fuel read) := by
  induction fuel generalizing read with
  | zero => exact moves_abandon _
  | succ fuel ih =>
    refine (moves_limitCount _ _).bind fun _ => (moves_expect _ _).bind fun param => ?_
    exact moves_accept?_bind (moves_pure _) fun comma => ih _

theorem moves_paramList (fuel : Nat) : Moves (paramList fuel) := by
  refine (moves_check _).bind fun closed => ?_
  cases closed with
  | true => exact moves_pure []
  | false => exact moves_paramsFrom fuel []

theorem moves_enclosedParams (fuel : Nat) (what : String) : Moves (enclosedParams fuel what) := by
  refine (moves_expect _ _).bind fun _ => (moves_paramList fuel).bind fun params => ?_
  exact (moves_expect _ _).bind fun _ => moves_pure params

theorem moves_returnType : Moves returnType := by
  refine moves_accept?_bind (moves_pure none) fun colons => ?_
  exact moves_accept?_bind (moves_abandon _) fun t => moves_pure _

theorem Moves.routine (hitem : Moves item) (fuel : Nat) (what : String) :
    Moves (routine fuel item what) := by
  refine (moves_expect _ _).bind fun name => (moves_enclosedParams fuel what).bind fun params => ?_
  refine moves_returnType.bind fun type => (moves_expect _ _).bind fun _ => ?_
  exact (hitem.block fuel).bind fun body => moves_pure _

theorem Moves.methodLine (hitem : Moves item) (fuel : Nat) : Moves (methodLine fuel item) :=
  moves_beginLine.bind fun _ => (moves_expect _ _).bind fun _ => hitem.routine fuel "method"

theorem Moves.method (hitem : Moves item) (fuel : Nat) : Moves (method fuel item) :=
  ((hitem.methodLine fuel).map some).recovering none

theorem moves_superclass : Moves superclass := by
  exact moves_accept?_bind (moves_pure none) fun colons => (moves_expect _ _).map fun t => some (t, ())

theorem Moves.classDef (hitem : Moves item) (fuel : Nat) : Moves (classDef fuel item) := by
  refine (moves_expect _ _).bind fun name => moves_superclass.bind fun parent => ?_
  refine (moves_expect _ _).bind fun _ => ?_
  exact ((hitem.method fuel).indented fuel).bind fun methods => moves_pure _

theorem moves_assignTo (target : Expr Unit) (mark : Token) (value : Expr Unit) :
    Moves (assignTo target mark value) := by
  unfold assignTo
  split
  · exact moves_pure _
  · exact moves_pure _
  · exact Moves.bind (fun s => s.leads_complain mark .assignmentTarget) fun _ => moves_pure _

theorem moves_assignmentFrom (fuel : Nat) (target : Expr Unit) : Moves (assignmentFrom fuel target) := by
  exact moves_accept?_bind (moves_pure _) fun mark =>
    (moves_expression fuel).bind fun value => moves_assignTo target mark value

theorem moves_assignment (fuel : Nat) : Moves (assignment fuel) :=
  (moves_expression fuel).bind fun target => moves_assignmentFrom fuel target

theorem takes_assignment (fuel : Nat) : Takes (assignment fuel) :=
  (takes_expression fuel).bind_moves fun target => moves_assignmentFrom fuel target

theorem moves_givenBack (fuel : Nat) (keyword : Token) : Moves (givenBack fuel keyword) := by
  refine Moves.bind (fun s => Cursor.Leads.refl s) fun s => ?_
  split
  · exact (moves_expression fuel).map fun e => Stmt.giveBack keyword (some e)
  · exact moves_pure _

theorem Moves.alternative {next : Reading (Stmt Unit)} (hitem : Moves item) (hnext : Moves next)
    (limit : Nat) : Moves (alternative limit item next) := by
  exact moves_accept?_bind ((moves_expect _ _).bind fun _ => (hitem.block limit).map Stmt.block) fun word => hnext

theorem Moves.otherwise {next : Reading (Stmt Unit)} (hitem : Moves item) (hnext : Moves next)
    (limit : Nat) : Moves (otherwise limit item next) := by
  refine moves_acceptElse.bind fun found => ?_
  cases found with
  | false => exact moves_pure none
  | true => exact (hitem.alternative hnext limit).map some

theorem Moves.branch (hitem : Moves item) (limit fuel : Nat) : Moves (branch limit item fuel) := by
  induction fuel with
  | zero => exact moves_abandon _
  | succ fuel ih =>
    refine (moves_expression limit).bind fun condition => (moves_expect _ _).bind fun _ => ?_
    refine (hitem.block limit).bind fun whenTrue => ?_
    exact (hitem.otherwise ih limit).bind fun whenFalse => moves_pure _

theorem Moves.loop (hitem : Moves item) (fuel : Nat) : Moves (loop fuel item) := by
  refine (moves_expression fuel).bind fun condition => (moves_expect _ _).bind fun _ => ?_
  exact (hitem.block fuel).bind fun body => moves_pure _

theorem Moves.statementFrom (hitem : Moves item) (fuel : Nat) (t : Token) :
    Moves (statementFrom fuel item t) := by
  unfold Reading.statementFrom
  split
  · exact hitem.classDef fuel
  · exact (hitem.routine fuel "function").map Stmt.define
  · exact hitem.branch fuel fuel
  · exact (moves_expression fuel).map Stmt.print
  · exact moves_givenBack fuel t
  · exact hitem.loop fuel
  · exact (hitem.block fuel).map Stmt.block
  · exact moves_assignment fuel

theorem Moves.statement (hitem : Moves item) (fuel : Nat) : Moves (statement fuel item) := by
  refine (moves_accept? introduces).bind fun r => ?_
  cases r with
  | none => exact moves_assignment fuel
  | some t => exact hitem.statementFrom fuel t

theorem takes_statement (hitem : Moves item) (fuel : Nat) : Takes (statement fuel item) :=
  takes_accept?_bind (takes_assignment fuel) fun t => hitem.statementFrom fuel t

theorem Moves.statementLine (hitem : Moves item) (fuel : Nat) : Moves (statementLine fuel item) :=
  moves_beginLine.bind fun _ => (hitem.statement fuel).bind fun stmt =>
    moves_endStatement.bind fun _ => moves_pure stmt

end Statements

theorem moves_declaration (fuel : Nat) : Moves (declaration fuel) := by
  induction fuel with
  | zero => exact moves_pure _
  | succ fuel ih => exact (Moves.statementLine ih (fuel + 1)).recovering _

end Reading
end Offside
