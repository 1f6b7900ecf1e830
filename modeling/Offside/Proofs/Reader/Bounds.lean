import Offside.Proofs.Reader.Forward

/-!
# Bounds on reading are never reached

The loops of the reader count down from the number of tokens that are left, so that they are recursions on
a number.  The count never stops them: with a larger bound they do the same.  Each comparison below is
between a bound and the next larger one, on cursors with at most as many tokens as the smaller bound.

* `Reading.Agree` — two steps do the same wherever few enough tokens are left;
* `Reading.agree_expression`, `Reading.agree_statement`, `Reading.agree_declaration` — expressions, statements
  and lines under a bound and the next larger one.
-/

set_option autoImplicit false

namespace Offside.Reading

open Step
open Token (Kind)

variable {α β : Type}

/-- The steps do the same from every cursor with at most `k` tokens left. -/
def Agree (k : Nat) (p q : Reading α) : Prop :=
  ∀ s : Cursor, s.rest.length ≤ k → p s = q s

namespace Agree

variable {k : Nat} {p p' : Reading α} {f f' : α → Reading β}

theorem refl (k : Nat) (p : Reading α) : Agree k p p :=
  fun _ _ => rfl

theorem mono {j : Nat} (h : Agree k p p') (hj : j ≤ k) : Agree j p p' :=
  fun s hs => h s (Nat.le_trans hs hj)

theorem bind (hp : Agree k p p') (hm : Moves p) (hf : ∀ a, Agree k (f a) (f' a)) :
    Agree k (p >>= f) (p' >>= f') := by
  intro s hs
  cases h : p s with
  | ok a t =>
    rw [bind_of_ok h, bind_of_ok ((hp s hs).symm.trans h)]
    exact hf a t (Nat.le_trans (hm.ok h).length_le hs)
  | error e t => rw [bind_of_error h, bind_of_error ((hp s hs).symm.trans h)]

/-- Behind a step that consumes a token, agreement is needed for one token less. -/
theorem bind_takes (hp : Agree k p p') (ht : Takes p)
    (hf : 0 < k → ∀ a, Agree (k - 1) (f a) (f' a)) : Agree k (p >>= f) (p' >>= f') := by
  intro s hs
  cases h : p s with
  | ok a t =>
    rw [bind_of_ok h, bind_of_ok ((hp s hs).symm.trans h)]
    have hlt := ht s a t h
    exact hf (by omega) a t (by omega)
  | error e t => rw [bind_of_error h, bind_of_error ((hp s hs).symm.trans h)]

theorem map (g : α → β) (hp : Agree k p p') (hm : Moves p) : Agree k (g <$> p) (g <$> p') :=
  hp.bind hm fun a => refl k (pure (g a))

theorem accept? {isKind : Kind → Bool} {g g' : Option Token → Reading β}
    (hn : Agree k (g none) (g' none)) (hs : 0 < k → ∀ t, Agree (k - 1) (g (some t)) (g' (some t))) :
    Agree k (Reading.accept? isKind >>= g) (Reading.accept? isKind >>= g') := by
  intro s hk
  cases h : Reading.accept? isKind s with
  | ok r t =>
    rw [bind_of_ok h, bind_of_ok h]
    cases r with
    | none =>
      rw [eq_of_accept?_none h]
      exact hn s hk
    | some x =>
      have hlt := length_lt_of_accept?_some h
      exact hs (by omega) x t (by omega)
  | error e t => exact absurd h accept?_ne_error

theorem expect {kind : Kind} {what : String} {g g' : Token → Reading β}
    (hg : 0 < k → ∀ t, Agree (k - 1) (g t) (g' t)) :
    Agree k (Reading.expect kind what >>= g) (Reading.expect kind what >>= g') :=
  (refl k _).bind_takes (takes_expect kind what) hg

end Agree

/-- With no tokens left, a step that may accept one goes on without it. -/
theorem accept?_bind_of_length {isKind : Kind → Bool} {f : Option Token → Reading α} {s : Cursor}
    (hs : s.rest.length ≤ 0) : (accept? isKind >>= f) s = f none s :=
  bind_of_ok (accept?_of_nil (List.length_eq_zero_iff.1 (Nat.le_zero.1 hs)))

/-! ## Expressions -/

section Expressions

variable {k : Nat} {e e' operand operand' : Reading (Expr Unit)}

theorem agree_joinFrom (tier : Tier) (hop : Agree k operand operand') (hm : Moves operand) {fuel : Nat}
    (hk : k ≤ fuel) (left : Expr Unit) :
    Agree k (joinFrom tier operand fuel left) (joinFrom tier operand' (fuel + 1) left) := by
  induction fuel generalizing k left with
  | zero =>
    intro s hs
    rw [joinFrom, joinFrom, accept?_bind_of_length (Nat.le_trans hs hk)]
  | succ fuel ih =>
    refine Agree.accept? (Agree.refl k _) fun hpos operator => ?_
    have hop' := hop.mono (Nat.sub_le k 1)
    exact hop'.bind hm fun right => ih hop' (by omega) _

theorem agree_leftAssociative (tier : Tier) (hop : Agree k operand operand') (hm : Moves operand)
    {fuel : Nat} (hk : k ≤ fuel) :
    Agree k (leftAssociative tier fuel operand) (leftAssociative tier (fuel + 1) operand') :=
  hop.bind hm fun first => agree_joinFrom tier hop hm hk first

theorem agree_signed (hop : Agree k operand operand') (hm : Moves operand) {fuel : Nat}
    (hk : k ≤ fuel) : Agree k (signed operand fuel) (signed operand' (fuel + 1)) := by
  induction fuel generalizing k with
  | zero =>
    intro s hs
    rw [signed, signed, hop s hs, accept?_bind_of_length (Nat.le_trans hs hk)]
  | succ fuel ih =>
    refine Agree.accept? hop fun hpos operator => ?_
    exact (ih (hop.mono (Nat.sub_le k 1)) (by omega)).map _ (hm.signed fuel)

/-- An argument list needs a bound above the number of tokens, for it reports its length before it looks
for a token; it has that bound, for the callee has been consumed. -/
theorem agree_argumentsFrom (he : Agree k e e') (hm : Moves e) {fuel : Nat} (hk : k < fuel)
    (read : List (Expr Unit)) :
    Agree k (argumentsFrom e fuel read) (argumentsFrom e' (fuel + 1) read) := by
  induction fuel generalizing k read with
  | zero => omega
  | succ fuel ih =>
    refine (Agree.refl k _).bind (moves_limitCount _ _) fun _ => ?_
    refine he.bind hm fun argument => Agree.accept? (Agree.refl k _) fun hpos comma => ?_
    exact ih (he.mono (Nat.sub_le k 1)) (by omega) _

theorem agree_argumentList (he : Agree k e e') (hm : Moves e) {fuel : Nat} (hk : k < fuel) :
    Agree k (argumentList e fuel) (argumentList e' (fuel + 1)) := by
  refine (Agree.refl k _).bind (moves_check _) fun closed => ?_
  cases closed with
  | true => exact Agree.refl k _
  | false => exact agree_argumentsFrom he hm hk []

theorem agree_finishCall (he : Agree k e e') (hm : Moves e) {fuel : Nat} (hk : k < fuel)
    (callee : Expr Unit) : Agree k (finishCall e fuel callee) (finishCall e' (fuel + 1) callee) :=
  (agree_argumentList he hm hk).bind (hm.argumentList fuel) fun _ => Agree.refl k _

theorem agree_suffixesFrom {limit limit' : Nat}
    (hcall : ∀ left, Agree (k - 1) (finishCall e limit left) (finishCall e' limit' left)) (hm : Moves e)
    {fuel : Nat} (hk : k ≤ fuel) (left : Expr Unit) :
    Agree k (suffixesFrom e limit fuel left) (suffixesFrom e' limit' (fuel + 1) left) := by
  induction fuel generalizing k left with
  | zero =>
    intro s hs
    have hnil := Nat.le_trans hs hk
    exact ((accept?_bind_of_length hnil).trans (accept?_bind_of_length hnil)).symm
  | succ fuel ih =>
    have hnext := ih (k := k - 1) (fun left => (hcall left).mono (Nat.sub_le _ 1)) (by omega)
    refine Agree.accept? (Agree.accept? (Agree.refl k _) fun hpos dot => ?_) fun hpos paren => ?_
    · exact Agree.expect fun hpos' field => (hnext _).mono (Nat.sub_le _ 1)
    · exact (hcall left).bind (hm.finishCall limit left) fun call => hnext call

theorem agree_primaryFrom (he : Agree k e e') (hm : Moves e) (t : Token) :
    Agree k (primaryFrom e t) (primaryFrom e' t) := by
  unfold primaryFrom
  split
  · exact Agree.refl k _
  · exact Agree.refl k _
  · exact Agree.refl k _
  · exact he.bind hm fun _ => Agree.refl k _
  · exact Agree.refl k _

theorem agree_primary (he : Agree (k - 1) e e') (hm : Moves e) :
    Agree k (primary e) (primary e') :=
  Agree.accept? (Agree.refl k _) fun _ t => agree_primaryFrom he hm t

theorem agree_postfixed (he : Agree (k - 1) e e') (hm : Moves e) {fuel : Nat} (hk : k ≤ fuel) :
    Agree k (postfixed e fuel) (postfixed e' (fuel + 1)) := by
  refine (agree_primary he hm).bind_takes (takes_primary hm) fun hpos first => ?_
  exact agree_suffixesFrom (fun left => agree_finishCall (he.mono (Nat.sub_le _ 1)) hm (by omega) left) hm
    (by omega) first

theorem agree_levels (he : Agree (k - 1) e e') (hm : Moves e) {fuel : Nat} (hk : k ≤ fuel)
    (T : List Tier) : Agree k (levels fuel e T) (levels (fuel + 1) e' T) := by
  induction T with
  | nil => exact agree_signed (agree_postfixed he hm hk) (hm.postfixed fuel) hk
  | cons tier more ih => exact agree_leftAssociative tier ih (hm.levels fuel more) hk

/-- With no tokens left there is no expression, whatever the bound. -/
theorem levels_of_length (e : Reading (Expr Unit)) (fuel : Nat) (T : List Tier) {s : Cursor}
    (hs : s.rest.length ≤ 0) : levels fuel e T s = abandon (.expected "expression") s := by
  induction T with
  | nil =>
    have hprimary : postfixed e fuel s = abandon (.expected "expression") s :=
      bind_of_error (accept?_bind_of_length hs)
    cases fuel with
    | zero => exact hprimary
    | succ fuel => exact (accept?_bind_of_length hs).trans hprimary
  | cons tier more ih => exact bind_of_error ih

end Expressions

/-- An expression in a text of at most `fuel` tokens does not depend on the bound. -/
theorem agree_expression (fuel : Nat) : Agree fuel (expression fuel) (expression (fuel + 1)) := by
  induction fuel with
  | zero =>
    intro s hs
    exact (levels_of_length _ _ tiers hs).symm
  | succ fuel ih => exact agree_levels (k := fuel + 1) ih (moves_expression fuel) (Nat.le_refl _) tiers

/-! ## Lines and blocks -/

/-- From every cursor in front of a line, with at most `k` tokens left, the step yields a value and moves
past a token. -/
def Advances (k : Nat) (item : Reading α) : Prop :=
  ∀ s : Cursor, s.rest.length ≤ k → (lineRun s.rest).2 ≠ [] →
    ∃ a t, item s = .ok a t ∧ s.Leads t ∧ t.rest.length < s.rest.length

/-- The steps do the same from every cursor in front of a line, with at most `k` tokens left. -/
def AgreeOnLines (k : Nat) (item item' : Reading α) : Prop :=
  ∀ s : Cursor, s.rest.length ≤ k → (lineRun s.rest).2 ≠ [] → item s = item' s

theorem Advances.mono {j k : Nat} {item : Reading α} (h : Advances k item) (hj : j ≤ k) :
    Advances j item :=
  fun s hs => h s (Nat.le_trans hs hj)

theorem AgreeOnLines.mono {j k : Nat} {item item' : Reading α} (h : AgreeOnLines k item item')
    (hj : j ≤ k) : AgreeOnLines j item item' :=
  fun s hs => h s (Nat.le_trans hs hj)

theorem Advances.map {k : Nat} {item : Reading α} (h : Advances k item) (g : α → β) :
    Advances k (g <$> item) := by
  intro s hs hline
  obtain ⟨a, t, ha, hlead, hlt⟩ := h s hs hline
  exact ⟨g a, t, map_of_ok ha, hlead, hlt⟩

theorem AgreeOnLines.map {k : Nat} {item item' : Reading α} (h : AgreeOnLines k item item')
    (g : α → β) : AgreeOnLines k (g <$> item) (g <$> item') := by
  intro s hs hline
  show EStateM.map g item s = EStateM.map g item' s
  unfold EStateM.map
  rw [h s hs hline]

theorem rest_ne_nil_of_lineRun {s : Cursor} (h : (lineRun s.rest).2 ≠ []) : s.rest ≠ [] := by
  intro hnil
  rw [hnil] at h
  exact h rfl

/-- A line read with a fallback is passed, whether it is read or given up: giving up skips a token, also if
the line was given up before any of its tokens was consumed. -/
theorem advances_recovering {p : Reading α} (hm : Moves p) (ht : Takes p) (fallback : α) (k : Nat) :
    Advances k (recovering p fallback) := by
  intro s _ hline
  have hs := rest_ne_nil_of_lineRun hline
  cases h : p s with
  | ok a t => exact ⟨a, t, by unfold recovering; rw [h], hm.ok h, ht s a t h⟩
  | error e t =>
    have hst := (hm.error h).toLeads
    refine ⟨fallback, t.recover, by unfold recovering; rw [h], hst.trans t.leads_recover, ?_⟩
    by_cases hnil : t.rest = []
    · have hle := t.leads_recover.length_le
      rw [hnil] at hle
      have := List.length_pos_iff.2 hs
      simp only [List.length_nil] at hle
      omega
    · exact Nat.lt_of_lt_of_le (Cursor.length_recover_lt hnil) hst.length_le

theorem agree_items {k : Nat} {item item' : Reading (Option α)} (hitem : AgreeOnLines k item item')
    (hadv : Advances k item) {fuel : Nat} (hk : k ≤ fuel) :
    Agree k (items item fuel) (items item' (fuel + 1)) := by
  induction fuel generalizing k with
  | zero =>
    intro s hs
    have hnil : s.rest = [] := List.length_eq_zero_iff.1 (Nat.le_zero.1 (Nat.le_trans hs hk))
    have hend : (lineRun s.rest).2.isEmpty = true := by rw [hnil]; rfl
    unfold items
    simp only [hend, Bool.true_or, if_true]
    rfl
  | succ fuel ih =>
    intro s hs
    unfold items
    simp only
    split
    · rfl
    · rename_i hmore
      have hline : (lineRun s.rest).2 ≠ [] := by
        intro hnil
        simp [hnil] at hmore
      obtain ⟨first, t, hfirst, hlead, hlt⟩ := hadv s hs hline
      rw [bind_of_ok hfirst, bind_of_ok ((hitem s hs hline).symm.trans hfirst)]
      have hrest := ih (k := t.rest.length) (hitem.mono (by omega)) (hadv.mono (by omega)) (by omega)
        t (Nat.le_refl _)
      cases hmore' : items item fuel t with
      | ok more u => rw [bind_of_ok hmore', bind_of_ok (hrest.symm.trans hmore')]
      | error e u => rw [bind_of_error hmore', bind_of_error (hrest.symm.trans hmore')]

theorem agree_indented {k : Nat} {item item' : Reading (Option α)} (hitem : AgreeOnLines k item item')
    (hadv : Advances k item) {fuel : Nat} (hk : k ≤ fuel) :
    Agree k (indented fuel item) (indented (fuel + 1) item') := by
  intro s hs
  unfold indented
  simp only
  split
  · rfl
  · rename_i inner _
    unfold within
    rw [agree_items hitem hadv hk { s with layout := inner } hs]

/-! ## Statements -/

section Statements

variable {k fuel : Nat} {item item' : Reading (Stmt Unit)}

theorem agree_block (hitem : AgreeOnLines k item item') (hadv : Advances k item) (hk : k ≤ fuel) :
    Agree k (block fuel item) (block (fuel + 1) item') :=
  agree_indented (hitem.map some) (hadv.map some) hk

theorem agree_paramsFrom (hk : k < fuel) (read : List Token) :
    Agree k (paramsFrom fuel read) (paramsFrom (fuel + 1) read) := by
  induction fuel generalizing k read with
  | zero => omega
  | succ fuel ih =>
    refine (Agree.refl k _).bind (moves_limitCount _ _) fun _ => Agree.expect fun hpos param => ?_
    refine Agree.accept? (Agree.refl _ _) fun hpos' comma => ?_
    exact ih (by omega) _

theorem agree_paramList (hk : k < fuel) : Agree k (paramList fuel) (paramList (fuel + 1)) := by
  refine (Agree.refl k _).bind (moves_check _) fun closed => ?_
  cases closed with
  | true => exact Agree.refl k _
  | false => exact agree_paramsFrom hk []

theorem agree_enclosedParams (hk : k ≤ fuel) (what : String) :
    Agree k (enclosedParams fuel what) (enclosedParams (fuel + 1) what) := by
  refine Agree.expect fun hpos paren => ?_
  exact (agree_paramList (by omega)).bind (moves_paramList fuel) fun params => Agree.refl _ _

theorem agree_routine (hm : Moves item) (hitem : AgreeOnLines k item item') (hadv : Advances k item)
    (hk : k ≤ fuel) (what : String) :
    Agree k (routine fuel item what) (routine (fuel + 1) item' what) := by
  refine (Agree.refl k _).bind (moves_expect _ _) fun name => ?_
  refine (agree_enclosedParams hk what).bind (moves_enclosedParams fuel what) fun params => ?_
  refine (Agree.refl k _).bind moves_returnType fun type => ?_
  refine (Agree.refl k _).bind (moves_expect _ _) fun _ => ?_
  exact (agree_block hitem hadv hk).bind (hm.block fuel) fun body => Agree.refl k _

theorem agree_methodLine (hm : Moves item) (hitem : AgreeOnLines (k - 1) item item')
    (hadv : Advances (k - 1) item) (hk : k ≤ fuel) :
    Agree k (methodLine fuel item) (methodLine (fuel + 1) item') := by
  refine (Agree.refl k _).bind moves_beginLine fun _ => Agree.expect fun hpos word => ?_
  exact agree_routine hm hitem hadv (by omega) "method"

theorem agree_method (hm : Moves item) (hitem : AgreeOnLines (k - 1) item item')
    (hadv : Advances (k - 1) item) (hk : k ≤ fuel) :
    AgreeOnLines k (method fuel item) (method (fuel + 1) item') := by
  intro s hs _
  have hline := ((agree_methodLine hm hitem hadv hk).map some (hm.methodLine fuel)) s hs
  unfold method recovering
  rw [hline]

theorem takes_methodLine (hm : Moves item) (fuel : Nat) : Takes (methodLine fuel item) :=
  moves_beginLine.bind_takes fun _ => (takes_expect _ _).bind_moves fun _ => hm.routine fuel "method"

/-- Every pass over a line of a class body moves past a token. -/
theorem advances_method (hm : Moves item) (fuel k : Nat) : Advances k (method fuel item) :=
  advances_recovering ((hm.methodLine fuel).map some)
    ((takes_methodLine hm fuel).bind_moves fun r => moves_pure (some r)) none k

theorem agree_classDef (hm : Moves item) (hitem : AgreeOnLines (k - 1) item item')
    (hadv : Advances (k - 1) item) (hk : k ≤ fuel) :
    Agree k (classDef fuel item) (classDef (fuel + 1) item') := by
  refine (Agree.refl k _).bind (moves_expect _ _) fun name => ?_
  refine (Agree.refl k _).bind moves_superclass fun parent => ?_
  refine (Agree.refl k _).bind (moves_expect _ _) fun _ => ?_
  have hbody := agree_indented (agree_method hm hitem hadv hk) (advances_method hm fuel k) hk
  exact hbody.bind ((hm.method fuel).indented fuel) fun methods => Agree.refl k _

theorem agree_assignmentFrom (hk : k ≤ fuel) (target : Expr Unit) :
    Agree k (assignmentFrom fuel target) (assignmentFrom (fuel + 1) target) := by
  refine Agree.accept? (Agree.refl k _) fun hpos mark => ?_
  exact ((agree_expression fuel).mono (by omega)).bind (moves_expression fuel) fun _ => Agree.refl _ _

theorem agree_assignment (hk : k ≤ fuel) : Agree k (assignment fuel) (assignment (fuel + 1)) :=
  ((agree_expression fuel).mono hk).bind (moves_expression fuel) fun target =>
    agree_assignmentFrom hk target

theorem agree_givenBack (hk : k ≤ fuel) (keyword : Token) :
    Agree k (givenBack fuel keyword) (givenBack (fuel + 1) keyword) := by
  refine (Agree.refl k _).bind (fun s => Cursor.Leads.refl s) fun s => ?_
  split
  · exact ((agree_expression fuel).mono hk).map _ (moves_expression fuel)
  · exact Agree.refl k _

theorem agree_alternative {next next' : Reading (Stmt Unit)} (hm : Moves item)
    (hitem : AgreeOnLines k item item') (hadv : Advances k item) (hk : k ≤ fuel)
    (hnext : 0 < k → Agree (k - 1) next next') :
    Agree k (alternative fuel item next) (alternative (fuel + 1) item' next') := by
  refine Agree.accept? ?_ fun hpos word => hnext hpos
  refine (Agree.refl k _).bind (moves_expect _ _) fun _ => ?_
  exact (agree_block hitem hadv hk).bind (hm.block fuel) fun body => Agree.refl k _

theorem agree_otherwise {next next' : Reading (Stmt Unit)} (hm : Moves item)
    (hitem : AgreeOnLines k item item') (hadv : Advances k item) (hk : k ≤ fuel)
    (hmn : Moves next) (hnext : 0 < k → Agree (k - 1) next next') :
    Agree k (otherwise fuel item next) (otherwise (fuel + 1) item' next') := by
  refine (Agree.refl k _).bind moves_acceptElse fun found => ?_
  cases found with
  | false => exact Agree.refl k _
  | true => exact (agree_alternative hm hitem hadv hk hnext).map some (hm.alternative hmn fuel)

theorem agree_branch {limit : Nat} (hm : Moves item) (hitem : AgreeOnLines k item item')
    (hadv : Advances k item) (hl : k ≤ limit) (hk : k ≤ fuel) :
    Agree k (branch limit item fuel) (branch (limit + 1) item' (fuel + 1)) := by
  induction fuel generalizing k with
  | zero =>
    intro s hs
    exact (bind_of_error (levels_of_length _ _ tiers (Nat.le_trans hs hk))).symm
  | succ fuel ih =>
    refine ((agree_expression limit).mono hl).bind (moves_expression limit) fun condition => ?_
    refine (Agree.refl k _).bind (moves_expect _ _) fun _ => ?_
    refine (agree_block hitem hadv hl).bind (hm.block limit) fun whenTrue => ?_
    have hnext (_ : 0 < k) := ih (k := k - 1) (hitem.mono (Nat.sub_le k 1)) (hadv.mono (Nat.sub_le k 1))
      (by omega) (by omega)
    have hrest := agree_otherwise hm hitem hadv hl (hm.branch limit fuel) hnext
    exact hrest.bind (hm.otherwise (hm.branch limit fuel) limit) fun whenFalse => Agree.refl k _

theorem agree_loop (hm : Moves item) (hitem : AgreeOnLines k item item') (hadv : Advances k item)
    (hk : k ≤ fuel) : Agree k (loop fuel item) (loop (fuel + 1) item') := by
  refine ((agree_expression fuel).mono hk).bind (moves_expression fuel) fun condition => ?_
  refine (Agree.refl k _).bind (moves_expect _ _) fun _ => ?_
  exact (agree_block hitem hadv hk).bind (hm.block fuel) fun body => Agree.refl k _

theorem agree_statementFrom (hm : Moves item) (hitem : AgreeOnLines k item item')
    (hadv : Advances k item) (hk : k ≤ fuel) (t : Token) :
    Agree k (statementFrom fuel item t) (statementFrom (fuel + 1) item' t) := by
  have hexpression := (agree_expression fuel).mono hk
  unfold statementFrom
  split
  · exact agree_classDef hm (hitem.mono (Nat.sub_le k 1)) (hadv.mono (Nat.sub_le k 1)) hk
  · exact (agree_routine hm hitem hadv hk "function").map _ (hm.routine fuel "function")
  · exact agree_branch hm hitem hadv hk hk
  · exact hexpression.map _ (moves_expression fuel)
  · exact agree_givenBack hk t
  · exact agree_loop hm hitem hadv hk
  · exact (agree_block hitem hadv hk).map _ (hm.block fuel)
  · exact agree_assignment hk

theorem agree_statement (hm : Moves item) (hitem : AgreeOnLines (k - 1) item item')
    (hadv : Advances (k - 1) item) (hk : k ≤ fuel) :
    Agree k (statement fuel item) (statement (fuel + 1) item') :=
  Agree.accept? (agree_assignment hk) fun hpos t => agree_statementFrom hm hitem hadv (by omega) t

theorem agree_statementLine (hm : Moves item) (hitem : AgreeOnLines (k - 1) item item')
    (hadv : Advances (k - 1) item) (hk : k ≤ fuel) :
    Agree k (statementLine fuel item) (statementLine (fuel + 1) item') := by
  refine (Agree.refl k _).bind moves_beginLine fun _ => ?_
  exact (agree_statement hm hitem hadv hk).bind (hm.statement fuel) fun stmt => Agree.refl k _

theorem takes_statementLine (hm : Moves item) (fuel : Nat) : Takes (statementLine fuel item) :=
  moves_beginLine.bind_takes fun _ => (takes_statement hm fuel).bind_moves fun stmt =>
    moves_endStatement.bind fun _ => moves_pure stmt

end Statements

/-- Every pass over a line of statements moves past a token. -/
theorem advances_declaration (fuel : Nat) : Advances fuel (declaration fuel) := by
  cases fuel with
  | zero =>
    intro s hs hline
    exact absurd (List.length_eq_zero_iff.1 (Nat.le_zero.1 hs)) (rest_ne_nil_of_lineRun hline)
  | succ fuel =>
    have hm := moves_declaration fuel
    exact advances_recovering (Moves.statementLine hm (fuel + 1)) (takes_statementLine hm (fuel + 1))
      .nothing (fuel + 1)

/-- A line in a text of at most `fuel` tokens does not depend on the bound. -/
theorem agree_declaration (fuel : Nat) :
    AgreeOnLines fuel (declaration fuel) (declaration (fuel + 1)) := by
  induction fuel with
  | zero =>
    intro s hs hline
    exact absurd (List.length_eq_zero_iff.1 (Nat.le_zero.1 hs)) (rest_ne_nil_of_lineRun hline)
  | succ fuel ih =>
    intro s hs _
    have hline := agree_statementLine (k := fuel + 1) (moves_declaration fuel) ih
      (advances_declaration fuel) (Nat.le_refl _) s hs
    show recovering _ _ s = recovering _ _ s
    unfold recovering
    rw [hline]

/-- A whole text of at most `fuel` tokens does not depend on the bound. -/
theorem agree_program (fuel : Nat) : Agree fuel (program fuel) (program (fuel + 1)) :=
  agree_items ((agree_declaration fuel).map some) ((advances_declaration fuel).map some)
    (Nat.le_refl fuel)

theorem program_eq_of_le {m n : Nat} {s : Cursor} (hs : s.rest.length ≤ m) (hmn : m ≤ n) :
    program n s = program m s := by
  induction n, hmn using Nat.le_induction with
  | base => rfl
  | succ n hmn ih => rw [← agree_program n s (Nat.le_trans hs hmn), ih]

end Offside.Reading
