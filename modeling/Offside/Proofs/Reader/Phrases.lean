import Offside.Reader.Statement

/-!
# Steps within a line

All that is read between the indentation of a line and the colon or line break at its end is put together from a few
smallest steps: a token is looked at, consumed or missed, and something is reported.  A property that sequences of
steps inherit from their parts belongs to all of these steps if it belongs to the smallest ones.

* `Reading.Composes` — such a property;
* `Reading.Composes.expression`, `Reading.Composes.assignment`, `Reading.Composes.enclosedParams` and the others —
  the steps that have it.
-/

set_option autoImplicit false

namespace Offside.Reading

open Token (Kind)

/-- A property of steps that sequences inherit and the smallest steps within a line have.  Indentation is never
consumed by these. -/
structure Composes (K : {α : Type} → Reading α → Prop) : Prop where
  pure : ∀ {α : Type} (a : α), K (pure a : Reading α)
  bind : ∀ {α β : Type} {p : Reading α} {f : α → Reading β}, K p → (∀ a, K (f a)) → K (p >>= f)
  check : ∀ p : Kind → Bool, K (check p)
  accept? : ∀ {p : Kind → Bool}, (∀ k, p k = true → k.isIndentation = false) → K (accept? p)
  abandon : ∀ {α : Type} (what : String), K (abandon (.expected what) : Reading α)
  limitCount : ∀ (count : Nat) (what : String), K (limitCount count what)
  misassigned : ∀ mark : Token, K (modify fun s => s.complain mark .assignmentTarget : Reading Unit)

namespace Composes

variable {K : {α : Type} → Reading α → Prop}

theorem map (h : Composes K) {α β : Type} {p : Reading α} (g : α → β) (hp : K p) : K (g <$> p) :=
  h.bind hp fun a => h.pure (g a)

/-- Accepting a token, with what follows in either case. -/
theorem accepting (h : Composes K) {α : Type} {p : Kind → Bool} {f : Option Token → Reading α}
    (hp : ∀ k, p k = true → k.isIndentation = false) (hnone : K (f none)) (hsome : ∀ t, K (f (some t))) :
    K (Reading.accept? p >>= f) := by
  refine h.bind (h.accept? hp) fun r => ?_
  cases r with
  | none => exact hnone
  | some t => exact hsome t

theorem accepting_kind (h : Composes K) {α : Type} {kind : Kind} {f : Option Token → Reading α}
    (hkind : kind.isIndentation = false) (hnone : K (f none)) (hsome : ∀ t, K (f (some t))) :
    K (Reading.accept? (· == kind) >>= f) := by
  refine h.accepting (fun k hk => ?_) hnone hsome
  rw [eq_of_beq hk]
  exact hkind

theorem expect (h : Composes K) {kind : Kind} (hkind : kind.isIndentation = false) (what : String) :
    K (expect kind what) :=
  h.accepting_kind hkind (h.abandon what) fun t => h.pure t

/-! ## Expressions -/

section Expressions

variable {e operand : Reading (Expr Unit)}

theorem joinFrom (h : Composes K) (hop : K operand) (tier : Tier) (fuel : Nat) (left : Expr Unit) :
    K (joinFrom tier operand fuel left) := by
  induction fuel generalizing left with
  | zero => exact h.pure left
  | succ fuel ih =>
    refine h.accepting (fun k hk => ?_) (h.pure left) fun operator => h.bind hop fun right => ih _
    cases tier <;> cases k <;> first | rfl | cases hk

theorem signed (h : Composes K) (hop : K operand) (fuel : Nat) : K (signed operand fuel) := by
  induction fuel with
  | zero => exact hop
  | succ fuel ih =>
    refine h.accepting (fun k hk => ?_) hop fun operator => h.map (Expr.unary operator) ih
    cases k <;> first | rfl | cases hk

theorem argumentsFrom (h : Composes K) (he : K e) (fuel : Nat) (read : List (Expr Unit)) :
    K (argumentsFrom e fuel read) := by
  induction fuel generalizing read with
  | zero => exact h.abandon _
  | succ fuel ih =>
    refine h.bind (h.limitCount _ _) fun _ => h.bind he fun argument => ?_
    exact h.accepting_kind rfl (h.pure _) fun comma => ih _

theorem argumentList (h : Composes K) (he : K e) (fuel : Nat) : K (argumentList e fuel) := by
  refine h.bind (h.check _) fun closed => ?_
  cases closed with
  | true => exact h.pure []
  | false => exact h.argumentsFrom he fuel []

theorem finishCall (h : Composes K) (he : K e) (fuel : Nat) (callee : Expr Unit) : K (finishCall e fuel callee) :=
  h.bind (h.argumentList he fuel) fun _ => h.bind (h.expect rfl _) fun _ => h.pure _

theorem suffixesFrom (h : Composes K) (he : K e) (limit fuel : Nat) (left : Expr Unit) :
    K (suffixesFrom e limit fuel left) := by
  induction fuel generalizing left with
  | zero => exact h.pure left
  | succ fuel ih =>
    refine h.accepting_kind rfl ?_ fun paren => h.bind (h.finishCall he limit left) fun call => ih call
    exact h.accepting_kind rfl (h.pure left) fun dot => h.bind (h.expect rfl _) fun field => ih _

theorem primaryFrom (h : Composes K) (he : K e) (t : Token) : K (primaryFrom e t) := by
  unfold Reading.primaryFrom
  split
  · exact h.bind (h.expect rfl _) fun _ => h.bind (h.expect rfl _) fun _ => h.pure _
  · exact h.pure _
  · exact h.pure _
  · exact h.bind he fun _ => h.bind (h.expect rfl _) fun _ => h.pure _
  · exact h.pure _

theorem primary (h : Composes K) (he : K e) : K (primary e) := by
  refine h.accepting (fun k hk => ?_) (h.abandon _) fun t => h.primaryFrom he t
  cases k <;> first | rfl | cases hk

theorem postfixed (h : Composes K) (he : K e) (fuel : Nat) : K (postfixed e fuel) :=
  h.bind (h.primary he) fun first => h.suffixesFrom he fuel fuel first

theorem levels (h : Composes K) (he : K e) (fuel : Nat) (tiers : List Tier) : K (levels fuel e tiers) := by
  induction tiers with
  | nil => exact h.signed (h.postfixed he fuel) fuel
  | cons tier more ih => exact h.bind ih fun first => h.joinFrom ih tier fuel first

end Expressions

theorem expression (h : Composes K) (fuel : Nat) : K (Reading.expression fuel) := by
  induction fuel with
  | zero => exact h.abandon _
  | succ fuel ih => exact h.levels ih (fuel + 1) tiers

/-! ## Parts of statements -/

theorem paramsFrom (h : Composes K) (fuel : Nat) (read : List Token) : K (paramsFrom fuel read) := by
  induction fuel generalizing read with
  | zero => exact h.abandon _
  | succ fuel ih =>
    refine h.bind (h.limitCount _ _) fun _ => h.bind (h.expect rfl _) fun param => ?_
    exact h.accepting_kind rfl (h.pure _) fun comma => ih _

theorem enclosedParams (h : Composes K) (fuel : Nat) (what : String) : K (enclosedParams fuel what) := by
  have hlist : K (paramList fuel) := by
    refine h.bind (h.check _) fun closed => ?_
    cases closed with
    | true => exact h.pure []
    | false => exact h.paramsFrom fuel []
  refine h.bind (h.expect rfl _) fun _ => h.bind hlist fun params => ?_
  exact h.bind (h.expect rfl _) fun _ => h.pure params

theorem returnType (h : Composes K) : K Reading.returnType := by
  refine h.accepting_kind rfl (h.pure none) fun colons => ?_
  refine h.accepting (fun k hk => ?_) (h.abandon _) fun t => h.pure _
  cases k <;> first | rfl | cases hk

theorem superclass (h : Composes K) : K Reading.superclass :=
  h.accepting_kind rfl (h.pure none) fun _ => h.map (fun t => some (t, ())) (h.expect rfl _)

theorem assignment (h : Composes K) (fuel : Nat) : K (assignment fuel) := by
  refine h.bind (h.expression fuel) fun target => ?_
  refine h.accepting_kind rfl (h.pure _) fun mark => h.bind (h.expression fuel) fun value => ?_
  unfold assignTo
  split
  · exact h.pure _
  · exact h.pure _
  · exact h.bind (h.misassigned mark) fun _ => h.pure _

/-- A value on the line of `return`, for which the cursor is looked at as a whole. -/
theorem givenBack (h : Composes K) (hget : K (get : Reading Cursor)) (fuel : Nat) (keyword : Token) :
    K (givenBack fuel keyword) := by
  refine h.bind hget fun s => ?_
  split
  · exact h.map (fun e => Stmt.giveBack keyword (some e)) (h.expression fuel)
  · exact h.pure _

end Composes
end Offside.Reading
