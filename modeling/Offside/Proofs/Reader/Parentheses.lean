import Offside.Proofs.Reader.Forward

/-!
# Open parentheses

The reader counts the parentheses that it is inside of.  A step that yields a value has closed what it has opened, also
if it has reported something on the way; only a step that is given up leaves parentheses open.

* `Reading.Closes` — a step that closes so many parentheses and leaves the others as they are, with one lemma for each
  step within a line;
* `Reading.closes_expression`, `Reading.closes_assignment`, `Reading.closes_enclosedParams` — the steps that close as
  many as they open.
-/

set_option autoImplicit false

namespace Offside.Reading

open Token (Kind)
open Cursor (parensAfter)
open Step

variable {α β : Type}

/-- If the step yields a value, it has closed `opened` parentheses more than it has opened. -/
def Closes (opened : Nat) (p : Reading α) : Prop :=
  ∀ (n : Nat) (s : Cursor), s.parens = n + opened → Ends (p s) (fun _ t => t.parens = n) (fun _ _ => True)

section Combinators

variable {p : Reading α} {f : α → Reading β} {opened : Nat}

theorem closes_pure (a : α) : Closes 0 (pure a : Reading α) :=
  fun _ _ h => h

theorem Closes.bind (hp : Closes 0 p) (hf : ∀ a, Closes opened (f a)) : Closes opened (p >>= f) :=
  fun n s h => (hp (n + opened) s h).bind fun a t ht => hf a n t ht

/-- The first step closes all of the parentheses. -/
theorem Closes.before (hp : Closes opened p) (hf : ∀ a, Closes 0 (f a)) : Closes opened (p >>= f) :=
  fun n s h => (hp n s h).bind fun a t ht => hf a n t ht

theorem Closes.map (g : α → β) (hp : Closes 0 p) : Closes 0 (g <$> p) :=
  hp.bind fun a => closes_pure (g a)

theorem closes_abandon (problem : Problem) : Closes opened (abandon problem : Reading α) :=
  fun _ _ _ => trivial

theorem closes_check (p : Kind → Bool) : Closes 0 (check p) :=
  fun _ _ h => h

theorem closes_limitCount (count : Nat) (what : String) : Closes 0 (limitCount count what) := by
  intro n s h
  unfold limitCount
  split
  · exact h
  · exact h

/-- Accepting a token.  What follows it closes one parenthesis more if the token has opened one. -/
theorem closes_accepting {p : Kind → Bool} {f : Option Token → Reading β} (hp : p .rightParen = false)
    (hnone : Closes opened (f none))
    (hsome : ∀ t : Token, p t.kind = true → Closes (parensAfter opened t.kind) (f (some t))) :
    Closes opened (accept? p >>= f) := by
  intro n s h
  cases haccept : accept? p s with
  | error e u => exact absurd haccept accept?_ne_error
  | ok r u =>
    rw [bind_of_ok haccept]
    cases r with
    | none =>
      rw [eq_of_accept?_none haccept]
      exact hnone n s h
    | some t =>
      obtain ⟨ts, -, ht, rfl⟩ := rest_of_accept?_some haccept
      have hparens : (s.consume t ts).parens = n + parensAfter opened t.kind := by
        have hclosing : t.kind ≠ .rightParen := by
          intro hkind
          rw [hkind, hp] at ht
          cases ht
        simp only [Cursor.consume, h]
        unfold parensAfter
        split <;> first | rfl | contradiction
      exact hsome t ht n _ hparens

/-- Accepting a token that is no parenthesis. -/
theorem closes_accepting_plain {p : Kind → Bool} {f : Option Token → Reading β} (hright : p .rightParen = false)
    (hleft : p .leftParen = false) (hnone : Closes opened (f none)) (hsome : ∀ t, Closes opened (f (some t))) :
    Closes opened (accept? p >>= f) := by
  refine closes_accepting hright hnone fun t ht => ?_
  have hplain : parensAfter opened t.kind = opened := by
    unfold parensAfter
    split
    · next hkind => rw [hkind, hleft] at ht; cases ht
    · next hkind => rw [hkind, hright] at ht; cases ht
    · rfl
  rw [hplain]
  exact hsome t

theorem closes_expect {kind : Kind} (hright : (Kind.rightParen == kind) = false)
    (hleft : (Kind.leftParen == kind) = false) (what : String) : Closes 0 (expect kind what) :=
  closes_accepting_plain hright hleft (closes_abandon _) closes_pure

theorem closes_expecting_leftParen {f : Token → Reading β} (what : String) (hf : ∀ t, Closes (opened + 1) (f t)) :
    Closes opened (expect .leftParen what >>= f) := by
  intro n s h
  cases hexpect : expect .leftParen what s with
  | error e u =>
    rw [bind_of_error hexpect]
    trivial
  | ok t u =>
    obtain ⟨ts, -, hkind, rfl⟩ := rest_of_expect hexpect
    rw [bind_of_ok hexpect]
    apply hf t n
    show parensAfter s.parens t.kind = n + (opened + 1)
    rw [hkind, h]
    rfl

theorem closes_expect_rightParen (what : String) : Closes 1 (expect .rightParen what) := by
  intro n s h
  cases hexpect : expect .rightParen what s with
  | error e u => trivial
  | ok t u =>
    obtain ⟨ts, -, hkind, rfl⟩ := rest_of_expect hexpect
    show parensAfter s.parens t.kind = n
    rw [hkind, h]
    rfl

end Combinators

/-! ## Expressions -/

section Expressions

variable {e operand : Reading (Expr Unit)}

theorem Closes.joinFrom (hop : Closes 0 operand) (tier : Tier) (fuel : Nat) (left : Expr Unit) :
    Closes 0 (joinFrom tier operand fuel left) := by
  induction fuel generalizing left with
  | zero => exact closes_pure left
  | succ fuel ih =>
    apply closes_accepting_plain
    · cases tier <;> rfl
    · cases tier <;> rfl
    · exact closes_pure left
    · intro operator
      exact hop.bind fun right => ih _

theorem Closes.signed (hop : Closes 0 operand) (fuel : Nat) : Closes 0 (signed operand fuel) := by
  induction fuel with
  | zero => exact hop
  | succ fuel ih => exact closes_accepting_plain rfl rfl hop fun operator => ih.map (Expr.unary operator)

theorem Closes.argumentsFrom (he : Closes 0 e) (fuel : Nat) (read : List (Expr Unit)) :
    Closes 0 (argumentsFrom e fuel read) := by
  induction fuel generalizing read with
  | zero => exact closes_abandon _
  | succ fuel ih =>
    refine (closes_limitCount _ _).bind fun _ => he.bind fun argument => ?_
    exact closes_accepting_plain rfl rfl (closes_pure _) fun comma => ih _

theorem Closes.argumentList (he : Closes 0 e) (fuel : Nat) : Closes 0 (argumentList e fuel) := by
  refine (closes_check _).bind fun closed => ?_
  cases closed with
  | true => exact closes_pure []
  | false => exact he.argumentsFrom fuel []

/-- The parenthesis in front of the arguments is closed behind them. -/
theorem Closes.finishCall (he : Closes 0 e) (fuel : Nat) (callee : Expr Unit) : Closes 1 (finishCall e fuel callee) :=
  (he.argumentList fuel).bind fun _ => (closes_expect_rightParen _).before fun _ => closes_pure _

theorem Closes.suffixesFrom (he : Closes 0 e) (limit fuel : Nat) (left : Expr Unit) :
    Closes 0 (suffixesFrom e limit fuel left) := by
  induction fuel generalizing left with
  | zero => exact closes_pure left
  | succ fuel ih =>
    refine closes_accepting rfl ?_ fun paren hparen => ?_
    · apply closes_accepting_plain rfl rfl (closes_pure left)
      intro dot
      exact (closes_expect rfl rfl _).bind fun field => ih _
    · rw [eq_of_beq hparen]
      exact (he.finishCall limit left).before fun call => ih call

/-- What begins with a parenthesis closes it. -/
theorem Closes.primaryFrom (he : Closes 0 e) (t : Token) : Closes (parensAfter 0 t.kind) (primaryFrom e t) := by
  unfold Reading.primaryFrom
  split
  · next hkind =>
    rw [hkind]
    exact (closes_expect rfl rfl _).bind fun _ => (closes_expect rfl rfl _).bind fun _ => closes_pure _
  · next hkind =>
    rw [hkind]
    exact closes_pure _
  · next hkind =>
    rw [hkind]
    exact closes_pure _
  · next hkind =>
    rw [hkind]
    exact he.bind fun _ => (closes_expect_rightParen _).before fun _ => closes_pure _
  · next hleft =>
    have hplain : parensAfter 0 t.kind = 0 := by
      unfold parensAfter
      split
      · next hkind => exact absurd hkind hleft
      · rfl
      · rfl
    rw [hplain]
    exact closes_pure _

theorem Closes.primary (he : Closes 0 e) : Closes 0 (primary e) :=
  closes_accepting rfl (closes_abandon _) fun t _ => he.primaryFrom t

theorem Closes.levels (he : Closes 0 e) (fuel : Nat) (tiers : List Tier) : Closes 0 (levels fuel e tiers) := by
  induction tiers with
  | nil => exact Closes.signed (he.primary.bind fun first => he.suffixesFrom fuel fuel first) fuel
  | cons tier more ih => exact ih.bind fun first => ih.joinFrom tier fuel first

end Expressions

theorem closes_expression (fuel : Nat) : Closes 0 (expression fuel) := by
  induction fuel with
  | zero => exact closes_abandon _
  | succ fuel ih => exact Closes.levels ih (fuel + 1) tiers

/-! ## Parts of statements -/

theorem closes_paramsFrom (fuel : Nat) (read : List Token) : Closes 0 (paramsFrom fuel read) := by
  induction fuel generalizing read with
  | zero => exact closes_abandon _
  | succ fuel ih =>
    refine (closes_limitCount _ _).bind fun _ => (closes_expect rfl rfl _).bind fun param => ?_
    exact closes_accepting_plain rfl rfl (closes_pure _) fun comma => ih _

theorem closes_paramList (fuel : Nat) : Closes 0 (paramList fuel) := by
  refine (closes_check _).bind fun closed => ?_
  cases closed with
  | true => exact closes_pure []
  | false => exact closes_paramsFrom fuel []

theorem closes_enclosedParams (fuel : Nat) (what : String) : Closes 0 (enclosedParams fuel what) := by
  apply closes_expecting_leftParen
  intro opening
  exact (closes_paramList fuel).bind fun params => (closes_expect_rightParen _).before fun _ => closes_pure params

theorem closes_returnType : Closes 0 returnType :=
  closes_accepting_plain rfl rfl (closes_pure none) fun _ =>
    closes_accepting_plain rfl rfl (closes_abandon _) fun _ => closes_pure _

theorem closes_superclass : Closes 0 superclass :=
  closes_accepting_plain rfl rfl (closes_pure none) fun _ =>
    Closes.map (fun t => some (t, ())) (closes_expect rfl rfl _)

theorem closes_assignTo (target : Expr Unit) (mark : Token) (value : Expr Unit) :
    Closes 0 (assignTo target mark value) := by
  unfold assignTo
  split
  · exact closes_pure _
  · exact closes_pure _
  · exact Closes.bind (p := modify _) (fun n s h => h) fun _ => closes_pure _

theorem closes_assignment (fuel : Nat) : Closes 0 (assignment fuel) := by
  refine (closes_expression fuel).bind fun target => ?_
  refine closes_accepting_plain rfl rfl (closes_pure _) fun mark => ?_
  exact (closes_expression fuel).bind fun value => closes_assignTo target mark value

theorem closes_givenBack (fuel : Nat) (keyword : Token) : Closes 0 (givenBack fuel keyword) := by
  refine Closes.bind (p := get) (fun n s h => h) fun s => ?_
  split
  · exact Closes.map (fun e => Stmt.giveBack keyword (some e)) (closes_expression fuel)
  · exact closes_pure _

theorem closes_endStatement : Closes 0 endStatement := by
  intro n s h
  unfold endStatement
  split
  · exact h
  · split
    · trivial
    · exact h

end Offside.Reading
