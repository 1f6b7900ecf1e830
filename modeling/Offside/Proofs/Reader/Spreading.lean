import Offside.Proofs.Reader.Spread

/-!
# Programs spread over more lines

Two readings, one of a text and one of the text with a line break put in between parentheses, go side by side.  Steps
within a line take two cursors at the same place to two cursors at the same place; steps between lines do so as long
as nothing is wrong, since only then no parenthesis is open where they look at lines.

* `Reading.Spreads`, `Reading.SpreadsLine` — steps that go alike, within a line and between lines;
* `Reading.read_spread` — the statements of the two texts, given their tokens;
* `Reading.Matched`, `Reading.Enclosed` — the places between a parenthesis and the one that closes it;
* `Reading.read_inserted` — the statements of a text with a line break put in at such a place.
-/

set_option autoImplicit false

namespace Offside

open Token (Kind lowered)

/-! ## Steps within a line -/

namespace Reading

open Step Grammar
open Cursor (Spread)

variable {α β γ δ : Type}

/-- Where the first step yields a value, the second one yields the same one in the other text, seen through
`view`. -/
def Spreads (view : α → γ) (p q : Reading α) : Prop :=
  ∀ s t a u, Spread s t → p s = .ok a u → ∃ a' v, q t = .ok a' v ∧ view a' = view a ∧ Spread u v

section Steps

variable {view : α → γ} {view' : β → δ}

theorem spreads_pure {a a' : α} (h : view a' = view a) : Spreads view (pure a) (pure a') := by
  intro s t b u hst hp
  obtain ⟨rfl, rfl⟩ := ok_of_pure hp
  exact ⟨a', t, rfl, h, hst⟩

theorem Spreads.bind {p q : Reading α} {f g : α → Reading β} (hp : Spreads view p q)
    (hf : ∀ a a', view a' = view a → Spreads view' (f a) (g a')) : Spreads view' (p >>= f) (q >>= g) := by
  intro s t b u hst h
  obtain ⟨a, m, h₁, h₂⟩ := ok_of_bind h
  obtain ⟨a', n, hq, ha, hmn⟩ := hp s t a m hst h₁
  obtain ⟨b', v, hg, hb, huv⟩ := hf a a' ha m n b u hmn h₂
  exact ⟨b', v, (bind_of_ok hq).trans hg, hb, huv⟩

theorem Spreads.map {p q : Reading α} {f g : α → β} (hp : Spreads view p q)
    (hf : ∀ a a', view a' = view a → view' (g a') = view' (f a)) : Spreads view' (f <$> p) (g <$> q) :=
  hp.bind fun a a' ha => spreads_pure (hf a a' ha)

theorem spreads_abandon (problem : Problem) (q : Reading α) : Spreads view (abandon problem) q :=
  fun _ _ _ _ _ h => nomatch h

/-- A step that begins by accepting a token or not. -/
theorem spreads_accept?_bind {p : Kind → Bool} {f g : Option Token → Reading β} (hn : Spreads view' (f none) (g none))
    (hs : ∀ x x', x'.unplaced = x.unplaced → Spreads view' (f (some x)) (g (some x'))) :
    Spreads view' (accept? p >>= f) (accept? p >>= g) := by
  intro s t b u hst h
  obtain ⟨r, m, h₁, h₂⟩ := ok_of_bind h
  cases r with
  | none =>
    have hm := eq_of_accept?_none h₁
    rw [hm] at h₁ h₂
    have hhalts := hst.halts (halts_of_accept?_none h₁)
    obtain ⟨b', v, hg, hb, huv⟩ := hn s t b u hst h₂
    exact ⟨b', v, (bind_of_ok (accept?_of_halts hhalts)).trans hg, hb, huv⟩
  | some x =>
    obtain ⟨rest, hrest, hp, rfl⟩ := rest_of_accept?_some h₁
    obtain ⟨x', rest', hrest', hx, -, hconsume⟩ := hst.head hrest
    obtain ⟨b', v, hg, hb, huv⟩ := hs x x' hx _ _ b u hconsume h₂
    rw [← kind_of_unplaced hx] at hp
    exact ⟨b', v, (bind_of_ok (accept?_of_rest hrest' hp)).trans hg, hb, huv⟩

theorem spreads_expect (kind : Kind) (what : String) :
    Spreads Token.unplaced (expect kind what) (expect kind what) :=
  spreads_accept?_bind (spreads_abandon _ _) fun _ _ hx => spreads_pure hx

theorem spreads_check (p : Kind → Bool) : Spreads id (check p) (check p) := by
  intro s t b u hst h
  cases hrest : s.rest with
  | nil =>
    have hnil : ∀ c : Cursor, c.rest = [] → check p c = .ok false c := by
      intro c hc
      unfold check
      rw [hc]
    rw [hnil s hrest] at h
    cases h
    exact ⟨false, t, hnil t (hst.nil hrest), rfl, hst⟩
  | cons x rest =>
    obtain ⟨x', rest', hrest', hx, -, -⟩ := hst.head hrest
    rw [check_of_rest hrest] at h
    cases h
    exact ⟨_, t, by rw [check_of_rest hrest', kind_of_unplaced hx], rfl, hst⟩

theorem spreads_limitCount (count : Nat) (what : String) :
    Spreads id (limitCount count what) (limitCount count what) := by
  intro s t b u hst h
  unfold limitCount at h ⊢
  rw [hst.argumentLimit]
  split at h
  · next hle =>
    cases h
    exact ⟨(), _, by rw [if_pos hle], rfl, hst.complain _ _ _ _⟩
  · next hlt =>
    cases h
    exact ⟨(), t, by rw [if_neg hlt], rfl, hst⟩

end Steps

section Expressions

variable {e operand : Reading (Expr Unit)}

theorem Spreads.joinFrom (h : Spreads Expr.unplaced operand operand) (tier : Tier) (fuel : Nat)
    {left left' : Expr Unit} (hleft : left'.unplaced = left.unplaced) :
    Spreads Expr.unplaced (joinFrom tier operand fuel left) (joinFrom tier operand fuel left') := by
  induction fuel generalizing left left' with
  | zero => exact spreads_pure hleft
  | succ fuel ih =>
    refine spreads_accept?_bind (spreads_pure hleft) fun operator operator' hoperator => ?_
    refine h.bind fun right right' hright => ih ?_
    rw [unplaced_join, unplaced_join, hleft, hoperator, hright]

theorem Spreads.signed (h : Spreads Expr.unplaced operand operand) (fuel : Nat) :
    Spreads Expr.unplaced (signed operand fuel) (signed operand fuel) := by
  induction fuel with
  | zero => exact h
  | succ fuel ih =>
    refine spreads_accept?_bind h fun operator operator' hoperator => ih.map fun x x' hx => ?_
    rw [Expr.unplaced, Expr.unplaced, hoperator, hx]

theorem Spreads.argumentsFrom (h : Spreads Expr.unplaced e e) (fuel : Nat) {read read' : List (Expr Unit)}
    (hread : read'.map Expr.unplaced = read.map Expr.unplaced) :
    Spreads (List.map Expr.unplaced) (argumentsFrom e fuel read) (argumentsFrom e fuel read') := by
  induction fuel generalizing read read' with
  | zero => exact spreads_abandon _ _
  | succ fuel ih =>
    have hlength : read'.length = read.length := by
      simpa using congrArg List.length hread
    unfold Reading.argumentsFrom
    rw [hlength]
    refine (spreads_limitCount _ _).bind fun _ _ _ => h.bind fun argument argument' hargument => ?_
    have hmore : (read' ++ [argument']).map Expr.unplaced = (read ++ [argument]).map Expr.unplaced := by
      rw [List.map_append, List.map_append, hread, List.map_singleton, List.map_singleton, hargument]
    exact spreads_accept?_bind (spreads_pure hmore) fun _ _ _ => ih hmore

theorem Spreads.finishCall (h : Spreads Expr.unplaced e e) (fuel : Nat) {callee callee' : Expr Unit}
    (hcallee : callee'.unplaced = callee.unplaced) :
    Spreads Expr.unplaced (finishCall e fuel callee) (finishCall e fuel callee') := by
  have harguments : Spreads (List.map Expr.unplaced) (argumentList e fuel) (argumentList e fuel) := by
    refine (spreads_check _).bind fun closed closed' hclosed => ?_
    obtain rfl : closed' = closed := hclosed
    cases closed' with
    | true => exact spreads_pure rfl
    | false => exact h.argumentsFrom fuel rfl
  refine harguments.bind fun arguments arguments' hall => (spreads_expect _ _).bind fun paren paren' hparen => ?_
  apply spreads_pure
  rw [Expr.unplaced, Expr.unplaced, hcallee, hparen, Expr.unplacedAll_eq_map, Expr.unplacedAll_eq_map, hall]

theorem Spreads.suffixesFrom (h : Spreads Expr.unplaced e e) (bound fuel : Nat) {left left' : Expr Unit}
    (hleft : left'.unplaced = left.unplaced) :
    Spreads Expr.unplaced (suffixesFrom e bound fuel left) (suffixesFrom e bound fuel left') := by
  induction fuel generalizing left left' with
  | zero => exact spreads_pure hleft
  | succ fuel ih =>
    refine spreads_accept?_bind ?_ fun _ _ _ => (h.finishCall bound hleft).bind fun _ _ hcall => ih hcall
    refine spreads_accept?_bind (spreads_pure hleft) fun _ _ _ => (spreads_expect _ _).bind fun field field' hfield => ?_
    apply ih
    rw [Expr.unplaced, Expr.unplaced, hleft, hfield]

theorem Spreads.primaryFrom (h : Spreads Expr.unplaced e e) {x x' : Token} (hx : x'.unplaced = x.unplaced) :
    Spreads Expr.unplaced (primaryFrom e x) (primaryFrom e x') := by
  have hliteral : literalOf? x' = literalOf? x := by
    simp only [literalOf?, kind_of_unplaced hx, literal_of_unplaced hx]
  unfold Reading.primaryFrom
  rw [kind_of_unplaced hx]
  split
  · refine (spreads_expect _ _).bind fun _ _ _ => (spreads_expect _ _).bind fun method method' hmethod => ?_
    exact spreads_pure (by rw [Expr.unplaced, Expr.unplaced, hx, hmethod])
  · exact spreads_pure (by rw [Expr.unplaced, Expr.unplaced, hx])
  · exact spreads_pure (by rw [Expr.unplaced, Expr.unplaced, hx])
  · refine h.bind fun inner inner' hinner => (spreads_expect _ _).bind fun _ _ _ => ?_
    exact spreads_pure (by rw [Expr.unplaced, Expr.unplaced, hinner])
  · exact spreads_pure (by rw [hliteral])

theorem Spreads.levels (h : Spreads Expr.unplaced e e) (fuel : Nat) (T : List Tier) :
    Spreads Expr.unplaced (levels fuel e T) (levels fuel e T) := by
  induction T with
  | nil =>
    have hprimary : Spreads Expr.unplaced (primary e) (primary e) :=
      spreads_accept?_bind (spreads_abandon _ _) fun _ _ hx => h.primaryFrom hx
    have hpostfixed : Spreads Expr.unplaced (postfixed e fuel) (postfixed e fuel) :=
      hprimary.bind fun _ _ hfirst => h.suffixesFrom fuel fuel hfirst
    exact hpostfixed.signed fuel
  | cons tier more ih => exact ih.bind fun _ _ hfirst => ih.joinFrom tier fuel hfirst

end Expressions

/-- An expression is the same in both texts. -/
theorem spreads_expression (fuel : Nat) : Spreads Expr.unplaced (expression fuel) (expression fuel) := by
  induction fuel with
  | zero => exact spreads_abandon _ _
  | succ fuel ih => exact ih.levels (fuel + 1) tiers

/-! ## Parts of statements -/

theorem spreads_paramsFrom (fuel : Nat) {read read' : List Token}
    (hread : read'.map Token.unplaced = read.map Token.unplaced) :
    Spreads (List.map Token.unplaced) (paramsFrom fuel read) (paramsFrom fuel read') := by
  induction fuel generalizing read read' with
  | zero => exact spreads_abandon _ _
  | succ fuel ih =>
    have hlength : read'.length = read.length := by
      simpa using congrArg List.length hread
    unfold Reading.paramsFrom
    rw [hlength]
    refine (spreads_limitCount _ _).bind fun _ _ _ => (spreads_expect _ _).bind fun param param' hparam => ?_
    have hmore : (read' ++ [param']).map Token.unplaced = (read ++ [param]).map Token.unplaced := by
      rw [List.map_append, List.map_append, hread, List.map_singleton, List.map_singleton, hparam]
    exact spreads_accept?_bind (spreads_pure hmore) fun _ _ _ => ih hmore

theorem spreads_enclosedParams (fuel : Nat) (what : String) :
    Spreads (List.map Token.unplaced) (enclosedParams fuel what) (enclosedParams fuel what) := by
  have hparams : Spreads (List.map Token.unplaced) (paramList fuel) (paramList fuel) := by
    refine (spreads_check _).bind fun closed closed' hclosed => ?_
    obtain rfl : closed' = closed := hclosed
    cases closed' with
    | true => exact spreads_pure rfl
    | false => exact spreads_paramsFrom fuel rfl
  refine (spreads_expect _ _).bind fun _ _ _ => hparams.bind fun params params' hall => ?_
  exact (spreads_expect _ _).bind fun _ _ _ => spreads_pure hall

theorem spreads_returnType : Spreads (Option.map Token.unplaced) returnType returnType := by
  refine spreads_accept?_bind (spreads_pure rfl) fun _ _ _ => ?_
  exact spreads_accept?_bind (spreads_abandon _ _) fun _ _ htype => spreads_pure (congrArg some htype)

theorem spreads_superclass :
    Spreads (Option.map fun p : Token × Unit => (p.1.unplaced, p.2)) superclass superclass := by
  refine spreads_accept?_bind (spreads_pure rfl) fun _ _ _ => (spreads_expect _ _).map fun name name' hname => ?_
  rw [Option.map_some, Option.map_some, hname]

theorem name_of_unplaced {e : Expr Unit} {token : Token} (h : e.unplaced = (Expr.name token ()).unplaced) :
    ∃ token', e = .name token' () ∧ token'.unplaced = token.unplaced := by
  cases e with
  | name token' _ => exact ⟨token', rfl, (Expr.name.inj h).1⟩
  | _ => cases h

theorem getField_of_unplaced {e object : Expr Unit} {field : Token}
    (h : e.unplaced = (Expr.getField object field).unplaced) :
    ∃ object' field', e = .getField object' field' ∧ object'.unplaced = object.unplaced ∧
      field'.unplaced = field.unplaced := by
  cases e with
  | getField object' field' =>
    obtain ⟨hobject, hfield⟩ := Expr.getField.inj h
    exact ⟨object', field', rfl, hobject, hfield⟩
  | _ => cases h

theorem assignTo_of_other {target : Expr Unit} (hname : ¬∃ token, target = .name token ())
    (hfield : ¬∃ object field, target = .getField object field) (mark : Token) (value : Expr Unit) (s : Cursor) :
    assignTo target mark value s = .ok (.evaluate target) (s.complain mark .assignmentTarget) := by
  unfold assignTo
  split
  · next token _ => exact absurd ⟨token, rfl⟩ hname
  · next object field => exact absurd ⟨object, field, rfl⟩ hfield
  · rfl

theorem spreads_assignTo {target target' value value' : Expr Unit} {mark mark' : Token}
    (htarget : target'.unplaced = target.unplaced) (hvalue : value'.unplaced = value.unplaced) :
    Spreads Stmt.unplaced (assignTo target mark value) (assignTo target' mark' value') := by
  by_cases hname : ∃ token, target = .name token ()
  · obtain ⟨token, rfl⟩ := hname
    obtain ⟨token', rfl, htoken⟩ := name_of_unplaced htarget
    exact spreads_pure (by rw [Stmt.unplaced, Stmt.unplaced, htoken, Option.map_some, Option.map_some, hvalue])
  by_cases hfield : ∃ object field, target = .getField object field
  · obtain ⟨object, field, rfl⟩ := hfield
    obtain ⟨object', field', rfl, hobject, hfield⟩ := getField_of_unplaced htarget
    exact spreads_pure (by rw [Stmt.unplaced, Stmt.unplaced, Expr.unplaced, Expr.unplaced, hobject, hfield, hvalue])
  -- any other target is reported in both texts
  have hname' : ¬∃ token, target' = .name token () := by
    rintro ⟨token, rfl⟩
    obtain ⟨token', rfl, -⟩ := name_of_unplaced htarget.symm
    exact hname ⟨token', rfl⟩
  have hfield' : ¬∃ object field, target' = .getField object field := by
    rintro ⟨object, field, rfl⟩
    obtain ⟨object', field', rfl, -⟩ := getField_of_unplaced htarget.symm
    exact hfield ⟨object', field', rfl⟩
  intro s t stmt u hst h
  rw [assignTo_of_other hname hfield] at h
  cases h
  refine ⟨_, _, assignTo_of_other hname' hfield' mark' value' t, ?_, hst.complain _ _ _ _⟩
  rw [Stmt.unplaced, Stmt.unplaced, htarget]

theorem spreads_assignment (fuel : Nat) : Spreads Stmt.unplaced (assignment fuel) (assignment fuel) := by
  refine (spreads_expression fuel).bind fun target target' htarget => ?_
  refine spreads_accept?_bind (spreads_pure ?_) fun mark mark' _ => ?_
  · rw [Stmt.unplaced, Stmt.unplaced, htarget]
  · exact (spreads_expression fuel).bind fun value value' hvalue => spreads_assignTo htarget hvalue

/-! ## Steps between lines -/

/-- Where no parenthesis is open and the first step yields a value without a report, no parenthesis is open behind
it, and the second step yields the same value in the other text, seen through `view`. -/
structure SpreadsLine (view : α → γ) (p q : Reading α) : Prop where
  moves : Moves p
  spreads : ∀ s t a u, s.parens = 0 → Spread s t → Yields p s a u →
    u.parens = 0 ∧ ∃ a' v, q t = .ok a' v ∧ view a' = view a ∧ Spread u v

/-- The same right behind the tokens `x` and `x'`. -/
structure SpreadsAfter (x x' : Token) (view : α → γ) (p q : Reading α) : Prop where
  moves : Moves p
  spreads : ∀ s t a u, s.parens = 0 → s.lastLine = x.line → t.lastLine = x'.line → Spread s t → Yields p s a u →
    u.parens = 0 ∧ ∃ a' v, q t = .ok a' v ∧ view a' = view a ∧ Spread u v

section LineSteps

variable {view : α → γ} {view' : β → δ}

theorem SpreadsLine.after {p q : Reading α} (h : SpreadsLine view p q) (x x' : Token) : SpreadsAfter x x' view p q :=
  ⟨h.moves, fun s t a u hparens _ _ => h.spreads s t a u hparens⟩

theorem spreadsLine_pure {a a' : α} (h : view a' = view a) : SpreadsLine view (pure a) (pure a') := by
  refine ⟨moves_pure a, ?_⟩
  intro s t b u hparens hst hy
  obtain ⟨rfl, rfl⟩ := hy.of_pure
  exact ⟨hparens, a', t, rfl, h, hst⟩

theorem SpreadsLine.bind {p q : Reading α} {f g : α → Reading β} (hp : SpreadsLine view p q)
    (hf : ∀ a a', view a' = view a → SpreadsLine view' (f a) (g a')) : SpreadsLine view' (p >>= f) (q >>= g) := by
  have hm : ∀ a, Moves (f a) := fun a => (hf a a rfl).moves
  refine ⟨hp.moves.bind hm, ?_⟩
  intro s t b u hparens hst hy
  obtain ⟨a, m, h₁, h₂⟩ := hy.of_bind hp.moves hm
  obtain ⟨hm, a', n, hq, ha, hmn⟩ := hp.spreads s t a m hparens hst h₁
  obtain ⟨hu, b', v, hg, hb, huv⟩ := (hf a a' ha).spreads m n b u hm hmn h₂
  exact ⟨hu, b', v, (bind_of_ok hq).trans hg, hb, huv⟩

theorem SpreadsLine.map {p q : Reading α} {f g : α → β} (hp : SpreadsLine view p q)
    (hf : ∀ a a', view a' = view a → view' (g a') = view' (f a)) : SpreadsLine view' (f <$> p) (g <$> q) :=
  hp.bind fun a a' ha => spreadsLine_pure (hf a a' ha)

theorem spreadsLine_abandon (problem : Problem) (q : Reading α) : SpreadsLine view (abandon problem) q :=
  ⟨moves_abandon problem, fun _ _ _ _ _ _ h => nomatch h.1⟩

/-- A step within a line whose parentheses match. -/
theorem Spreads.line {p q : Reading α} {P : Nat → α → List Token → Prop} (h : Spreads view p q) (hm : Moves p)
    (hspelled : ∀ limit, Spelled limit (P limit) p) (hbalanced : ∀ limit a ts, P limit a ts → Balanced ts) :
    SpreadsLine view p q := by
  refine ⟨hm, ?_⟩
  intro s t a u hparens hst hy
  obtain ⟨ts, hts, hpass⟩ := hspelled s.argumentLimit s a u rfl hy
  refine ⟨?_, h s t a u hst hy.1⟩
  rw [hpass.parens, (hbalanced _ a ts hts).parens, hparens]

theorem parens_consume {s : Cursor} {x : Token} {rest : List Token} (hs : s.parens = 0)
    (hx : isPlain x.kind = true) : (s.consume x rest).parens = 0 := by
  simp only [Cursor.consume, hs]
  revert hx
  cases x.kind <;> simp [isPlain, Cursor.parensAfter]

theorem spreadsLine_expect {kind : Kind} (hplain : isPlain kind = true) (what : String) :
    SpreadsLine Token.unplaced (expect kind what) (expect kind what) := by
  refine ⟨moves_expect kind what, ?_⟩
  intro s t x u hparens hst hy
  obtain ⟨rest, -, hkind, rfl⟩ := rest_of_expect hy.1
  exact ⟨parens_consume hparens (hkind ▸ hplain), spreads_expect kind what s t x _ hst hy.1⟩

/-- A step that begins by accepting a token or not. -/
theorem spreadsLine_accept?_bind {p : Kind → Bool} {f g : Option Token → Reading β}
    (hplain : ∀ k, p k = true → isPlain k = true) (hn : SpreadsLine view' (f none) (g none))
    (hs : ∀ x x', x'.unplaced = x.unplaced → SpreadsAfter x x' view' (f (some x)) (g (some x'))) :
    SpreadsLine view' (accept? p >>= f) (accept? p >>= g) := by
  refine ⟨moves_accept?_bind hn.moves fun x => (hs x x rfl).moves, ?_⟩
  intro s t b u hparens hst hy
  obtain ⟨r, m, h₁, h₂⟩ := ok_of_bind hy.1
  cases r with
  | none =>
    have hm := eq_of_accept?_none h₁
    rw [hm] at h₁ h₂
    have hhalts := hst.halts (halts_of_accept?_none h₁)
    obtain ⟨hu, b', v, hg, hb, huv⟩ := hn.spreads s t b u hparens hst ⟨h₂, hy.2⟩
    exact ⟨hu, b', v, (bind_of_ok (accept?_of_halts hhalts)).trans hg, hb, huv⟩
  | some x =>
    obtain ⟨rest, hrest, hp, rfl⟩ := rest_of_accept?_some h₁
    obtain ⟨x', rest', hrest', hx, -, hconsume⟩ := hst.head hrest
    obtain ⟨hu, b', v, hg, hb, huv⟩ := (hs x x' hx).spreads _ (t.consume x' rest') b u
      (parens_consume hparens (hplain _ hp)) rfl rfl hconsume ⟨h₂, hy.2⟩
    rw [← kind_of_unplaced hx] at hp
    exact ⟨hu, b', v, (bind_of_ok (accept?_of_rest hrest' hp)).trans hg, hb, huv⟩

/-- What is read without a report is not given up. -/
theorem SpreadsLine.recovering {p q : Reading α} (h : SpreadsLine view p q) (fallback : α) :
    SpreadsLine view (recovering p fallback) (recovering q fallback) := by
  refine ⟨h.moves.recovering fallback, ?_⟩
  intro s t a u hparens hst hy
  obtain ⟨hu, a', v, hq, ha, huv⟩ := h.spreads s t a u hparens hst (hy.of_recovering h.moves)
  refine ⟨hu, a', v, ?_, ha, huv⟩
  unfold Reading.recovering
  rw [hq]

end LineSteps

theorem isEmpty_of_spread {s t : Cursor} (h : Spread s t) : t.rest.isEmpty = s.rest.isEmpty := by
  cases hrest : s.rest with
  | nil => rw [h.nil hrest]
  | cons x rest =>
    obtain ⟨x', rest', hrest', -⟩ := h.head hrest
    rw [hrest']
    rfl

theorem spreadsLine_beginLine : SpreadsLine id beginLine beginLine := by
  refine ⟨moves_beginLine, ?_⟩
  intro s t _ u hparens hst hy
  obtain ⟨hrun, hbegun⟩ := hst.begun
  have hok := hy.1
  unfold beginLine at hok
  simp only at hok
  split at hok
  · next hcontinues =>
    cases hok
    refine ⟨hparens, (), t.begun, ?_, rfl, hbegun⟩
    rw [← Layout.continues_congr hrun, ← hst.layout] at hcontinues
    unfold beginLine
    simp only [hcontinues, if_true]
    rfl
  · cases hok

theorem spreadsLine_endStatement : SpreadsLine id endStatement endStatement := by
  refine ⟨moves_endStatement, ?_⟩
  intro s t _ u hparens hst hy
  obtain rfl := hy.of_endStatement
  refine ⟨hparens, (), t, ?_, rfl, hst⟩
  have hok := hy.1
  unfold endStatement at hok ⊢
  cases hrest : u.rest with
  | nil => rw [hst.nil hrest]
  | cons x rest =>
    obtain ⟨x', rest', hrest', hx, hline, -⟩ := hst.head hrest
    have hindentation : x'.isIndentation = x.isIndentation := by
      rw [Token.isIndentation, kind_of_unplaced hx, Token.isIndentation]
    have hsame : (x'.line == t.lastLine) = (x.line == u.lastLine) := by
      rw [Bool.eq_iff_iff, beq_iff_eq, beq_iff_eq]
      exact hline hparens
    rw [hrest] at hok
    rw [hrest']
    simp only [hindentation, hsame] at hok ⊢
    split at hok
    · cases hok
    · next hends => rw [if_neg hends]

section Blocks

variable {view : α → γ} {item : Reading (Option α)}

theorem SpreadsLine.items (h : SpreadsLine (Option.map view) item item) (fuel : Nat) :
    SpreadsLine (List.map view) (items item fuel) (items item fuel) := by
  induction fuel with
  | zero => exact spreadsLine_pure rfl
  | succ fuel ih =>
    refine ⟨h.moves.items (fuel + 1), ?_⟩
    intro s t as u hparens hst hy
    obtain ⟨hrun, hbegun⟩ := hst.begun
    have hstop : ((lineRun t.rest).2.isEmpty || t.layout.closes (lineRun t.rest).1) =
        ((lineRun s.rest).2.isEmpty || s.layout.closes (lineRun s.rest).1) := by
      have hempty : (lineRun t.rest).2.isEmpty = (lineRun s.rest).2.isEmpty := isEmpty_of_spread hbegun
      rw [hempty, hst.layout, Layout.closes_congr hrun]
    have hnext : SpreadsLine (List.map view)
        (do let first ← item
            let more ← Reading.items item fuel
            return first.toList ++ more)
        (do let first ← item
            let more ← Reading.items item fuel
            return first.toList ++ more) := by
      refine h.bind fun first first' hfirst => ih.bind fun more more' hmore => spreadsLine_pure ?_
      have hlist : first'.toList.map view = first.toList.map view := by
        rw [← Option.toList_map, hfirst, Option.toList_map]
      rw [List.map_append, List.map_append, hlist, hmore]
    obtain ⟨hok, hsilent⟩ := hy
    unfold Reading.items at hok ⊢
    simp only [hstop] at hok ⊢
    split at hok
    · next hend =>
      cases hok
      exact ⟨hparens, [], t, by rw [if_pos hend], rfl, hst⟩
    · next hend =>
      rw [if_neg hend]
      exact hnext.spreads s t as u hparens hst ⟨hok, hsilent⟩

theorem SpreadsLine.indented (h : SpreadsLine (Option.map view) item item) (fuel : Nat) :
    SpreadsLine (List.map view) (indented fuel item) (indented fuel item) := by
  refine ⟨h.moves.indented fuel, ?_⟩
  intro s t as u hparens hst hy
  obtain ⟨hrun, -⟩ := hst.begun
  obtain ⟨hok, hsilent⟩ := hy
  unfold Reading.indented at hok ⊢
  simp only [hst.layout, Layout.enter?_congr hrun] at hok ⊢
  split at hok
  · cases hok
  · next inner henter =>
    unfold Reading.within at hok ⊢
    split at hok
    · next bs m hbody =>
      cases hok
      obtain ⟨hm, as', v, hq, has, hmv⟩ := (h.items fuel).spreads { s with layout := inner }
        { t with layout := inner } as m hparens (hst.relayout inner) ⟨hbody, hsilent⟩
      refine ⟨hm, as', { v with layout := t.layout }, ?_, has, ?_⟩
      · rw [hq]
      · rw [hst.layout]
        exact hmv.relayout s.layout
    · cases hok

end Blocks

/-! ## Statements -/

theorem spreadsLine_expression (fuel : Nat) : SpreadsLine Expr.unplaced (expression fuel) (expression fuel) :=
  (spreads_expression fuel).line (moves_expression fuel) (fun limit => spelled_expression limit fuel)
    fun _ _ _ h => h.balanced

theorem spreadsLine_assignment (fuel : Nat) : SpreadsLine Stmt.unplaced (assignment fuel) (assignment fuel) :=
  (spreads_assignment fuel).line (moves_assignment fuel) (fun limit => spelled_assignment limit fuel)
    fun _ _ _ h => h.balanced

theorem spreadsLine_enclosedParams (fuel : Nat) (what : String) :
    SpreadsLine (List.map Token.unplaced) (enclosedParams fuel what) (enclosedParams fuel what) :=
  (spreads_enclosedParams fuel what).line (moves_enclosedParams fuel what)
    (fun limit => spelled_enclosedParams limit fuel what) fun _ _ _ h => balanced_enclosed h

theorem spreadsLine_returnType : SpreadsLine (Option.map Token.unplaced) returnType returnType :=
  spreads_returnType.line moves_returnType spelled_returnType fun _ _ _ h => h.balanced

theorem spreadsLine_superclass :
    SpreadsLine (Option.map fun p : Token × Unit => (p.1.unplaced, p.2)) superclass superclass :=
  spreads_superclass.line moves_superclass spelled_superclass fun _ _ _ h => h.balanced

/-- What is given back starts on the line of the keyword in both texts, or in neither. -/
theorem spreadsAfter_givenBack (fuel : Nat) {x x' : Token} (hx : x'.unplaced = x.unplaced) :
    SpreadsAfter x x' Stmt.unplaced (givenBack fuel x) (givenBack fuel x') := by
  refine ⟨moves_givenBack fuel x, ?_⟩
  intro s t stmt u hparens hline hline' hst hy
  have hget : ∀ c : Cursor, (get : Reading Cursor) c = .ok c c := fun _ => rfl
  have hsame : (!t.rest.isEmpty && t.current.line == x'.line) = (!s.rest.isEmpty && s.current.line == x.line) := by
    cases hrest : s.rest with
    | nil =>
      rw [hst.nil hrest]
      rfl
    | cons y rest =>
      obtain ⟨y', rest', hrest', -, hiff, -⟩ := hst.head hrest
      have hcurrent : (y'.line == x'.line) = (y.line == x.line) := by
        rw [← hline, ← hline', Bool.eq_iff_iff, beq_iff_eq, beq_iff_eq]
        exact hiff hparens
      simp only [Cursor.current, Cursor.firstOf, hrest, hrest', List.headD_cons, hcurrent, List.isEmpty_cons]
  have hvalue : SpreadsLine Stmt.unplaced ((fun e => Stmt.giveBack x (some e)) <$> expression fuel)
      ((fun e => Stmt.giveBack x' (some e)) <$> expression fuel) := by
    refine (spreadsLine_expression fuel).map fun e e' he => ?_
    rw [Stmt.unplaced, Stmt.unplaced, hx, Option.map_some, Option.map_some, he]
  have hnone : SpreadsLine Stmt.unplaced (pure (.giveBack x none)) (pure (.giveBack x' none)) :=
    spreadsLine_pure (by rw [Stmt.unplaced, Stmt.unplaced, hx])
  obtain ⟨hok, hsilent⟩ := hy
  unfold givenBack at hok ⊢
  rw [bind_of_ok (hget s)] at hok
  rw [bind_of_ok (hget t), hsame]
  by_cases hgiven : (!s.rest.isEmpty && s.current.line == x.line) = true
  · rw [if_pos hgiven] at hok ⊢
    exact hvalue.spreads s t stmt u hparens hst ⟨hok, hsilent⟩
  · rw [if_neg hgiven] at hok ⊢
    exact hnone.spreads s t stmt u hparens hst ⟨hok, hsilent⟩

theorem spreadsLine_acceptElse : SpreadsLine id acceptElse acceptElse := by
  refine ⟨moves_acceptElse, ?_⟩
  intro s t found u hparens hst hy
  obtain ⟨hrun, hbegun⟩ := hst.begun
  have hparens' : t.parens = 0 := hst.parens.trans hparens
  have hok := hy.1
  unfold acceptElse at hok ⊢
  cases hrest : (lineRun s.rest).2 with
  | nil =>
    have hrest' : (lineRun t.rest).2 = [] := hbegun.nil hrest
    simp only [hrest] at hok
    cases hok
    refine ⟨hparens, false, t, ?_, rfl, hst⟩
    simp only [hrest']
  | cons x rest =>
    obtain ⟨x', rest', hrest', hx, -, hconsume⟩ := hbegun.head hrest
    have hrest'' : (lineRun t.rest).2 = x' :: rest' := hrest'
    simp only [hrest] at hok
    simp only [hrest'', kind_of_unplaced hx, hst.layout, Layout.continues_congr hrun]
    split at hok
    · next helse =>
      cases hok
      refine ⟨hparens, true, _, by rw [if_pos helse], rfl, ?_⟩
      rw [Bool.and_eq_true, beq_iff_eq] at helse
      rwa [consume_else hparens helse.1, consume_else hparens' ((kind_of_unplaced hx).trans helse.1), hst.layout]
        at hconsume
    · next helse =>
      cases hok
      exact ⟨hparens, false, t, by rw [if_neg helse], rfl, hst⟩

section Statements

variable {item : Reading (Stmt Unit)}

theorem SpreadsLine.some {p q : Reading α} {view : α → γ} (h : SpreadsLine view p q) :
    SpreadsLine (Option.map view) (some <$> p) (some <$> q) :=
  h.map fun _ _ ha => by rw [Option.map_some, Option.map_some, ha]

theorem SpreadsLine.block (h : SpreadsLine Stmt.unplaced item item) (fuel : Nat) :
    SpreadsLine (List.map Stmt.unplaced) (block fuel item) (block fuel item) :=
  h.some.indented fuel

theorem SpreadsLine.routine (h : SpreadsLine Stmt.unplaced item item) (fuel : Nat) (what : String) :
    SpreadsLine Routine.unplaced (routine fuel item what) (routine fuel item what) := by
  refine (spreadsLine_expect rfl _).bind fun name name' hname => ?_
  refine (spreadsLine_enclosedParams fuel what).bind fun params params' hparams => ?_
  refine spreadsLine_returnType.bind fun type type' htype => (spreadsLine_expect rfl _).bind fun _ _ _ => ?_
  refine (h.block fuel).bind fun body body' hbody => spreadsLine_pure ?_
  rw [Routine.unplaced, Routine.unplaced, hname, hparams, htype, Stmt.unplacedAll_eq_map, Stmt.unplacedAll_eq_map,
    hbody]

theorem SpreadsLine.method (h : SpreadsLine Stmt.unplaced item item) (fuel : Nat) :
    SpreadsLine (Option.map Routine.unplaced) (method fuel item) (method fuel item) := by
  have hline : SpreadsLine Routine.unplaced (methodLine fuel item) (methodLine fuel item) :=
    spreadsLine_beginLine.bind fun _ _ _ => (spreadsLine_expect rfl _).bind fun _ _ _ => h.routine fuel "method"
  exact hline.some.recovering none

theorem SpreadsLine.classDef (h : SpreadsLine Stmt.unplaced item item) (fuel : Nat) :
    SpreadsLine Stmt.unplaced (classDef fuel item) (classDef fuel item) := by
  refine (spreadsLine_expect rfl _).bind fun name name' hname => ?_
  refine spreadsLine_superclass.bind fun parent parent' hparent => (spreadsLine_expect rfl _).bind fun _ _ _ => ?_
  refine ((h.method fuel).indented fuel).bind fun methods methods' hmethods => spreadsLine_pure ?_
  rw [Stmt.unplaced, Stmt.unplaced, hname, hparent, Routine.unplacedAll_eq_map, Routine.unplacedAll_eq_map, hmethods]

theorem unplaced_block {body body' : List (Stmt Unit)} (h : body'.map Stmt.unplaced = body.map Stmt.unplaced) :
    (Stmt.block body').unplaced = (Stmt.block body).unplaced := by
  rw [Stmt.unplaced, Stmt.unplaced, Stmt.unplacedAll_eq_map, Stmt.unplacedAll_eq_map, h]

theorem SpreadsLine.otherwise {next : Reading (Stmt Unit)} (h : SpreadsLine Stmt.unplaced item item)
    (hnext : SpreadsLine Stmt.unplaced next next) (limit : Nat) :
    SpreadsLine (Option.map Stmt.unplaced) (otherwise limit item next) (otherwise limit item next) := by
  have halternative : SpreadsLine Stmt.unplaced (alternative limit item next) (alternative limit item next) := by
    refine spreadsLine_accept?_bind (fun k hk => by rw [eq_of_beq hk]; rfl) ?_ fun x x' _ => hnext.after x x'
    refine (spreadsLine_expect rfl _).bind fun _ _ _ => (h.block limit).bind fun body body' hbody => ?_
    exact spreadsLine_pure (unplaced_block hbody)
  refine spreadsLine_acceptElse.bind fun found found' hfound => ?_
  obtain rfl : found' = found := hfound
  cases found' with
  | true => exact halternative.some
  | false => exact spreadsLine_pure rfl

theorem SpreadsLine.branch (h : SpreadsLine Stmt.unplaced item item) (limit fuel : Nat) :
    SpreadsLine Stmt.unplaced (branch limit item fuel) (branch limit item fuel) := by
  induction fuel with
  | zero => exact spreadsLine_abandon _ _
  | succ fuel ih =>
    refine (spreadsLine_expression limit).bind fun condition condition' hcondition => ?_
    refine (spreadsLine_expect rfl _).bind fun _ _ _ => (h.block limit).bind fun whenTrue whenTrue' htrue => ?_
    refine (h.otherwise ih limit).bind fun whenFalse whenFalse' hfalse => spreadsLine_pure ?_
    rw [Stmt.unplaced_branch, Stmt.unplaced_branch, hcondition, unplaced_block htrue, hfalse]

theorem SpreadsLine.loop (h : SpreadsLine Stmt.unplaced item item) (fuel : Nat) :
    SpreadsLine Stmt.unplaced (loop fuel item) (loop fuel item) := by
  refine (spreadsLine_expression fuel).bind fun condition condition' hcondition => ?_
  refine (spreadsLine_expect rfl _).bind fun _ _ _ => (h.block fuel).bind fun body body' hbody => spreadsLine_pure ?_
  show Stmt.loop condition'.unplaced (Stmt.block body').unplaced = .loop condition.unplaced (Stmt.block body).unplaced
  rw [hcondition, unplaced_block hbody]

theorem SpreadsLine.statementFrom (h : SpreadsLine Stmt.unplaced item item) (fuel : Nat) {x x' : Token}
    (hx : x'.unplaced = x.unplaced) :
    SpreadsAfter x x' Stmt.unplaced (statementFrom fuel item x) (statementFrom fuel item x') := by
  unfold Reading.statementFrom
  rw [kind_of_unplaced hx]
  split
  · exact (h.classDef fuel).after x x'
  · refine ((h.routine fuel "function").map fun r r' hr => ?_).after x x'
    rw [Stmt.unplaced, Stmt.unplaced, hr]
  · exact (h.branch fuel fuel).after x x'
  · refine ((spreadsLine_expression fuel).map fun e e' he => ?_).after x x'
    rw [Stmt.unplaced, Stmt.unplaced, he]
  · exact spreadsAfter_givenBack fuel hx
  · exact (h.loop fuel).after x x'
  · exact ((h.block fuel).map fun body body' hbody => unplaced_block hbody).after x x'
  · exact (spreadsLine_assignment fuel).after x x'

theorem SpreadsLine.statementLine (h : SpreadsLine Stmt.unplaced item item) (fuel : Nat) :
    SpreadsLine Stmt.unplaced (statementLine fuel item) (statementLine fuel item) := by
  have hstatement : SpreadsLine Stmt.unplaced (statement fuel item) (statement fuel item) :=
    spreadsLine_accept?_bind (fun _ => isPlain_of_introduces) (spreadsLine_assignment fuel) fun _ _ hx =>
      h.statementFrom fuel hx
  refine spreadsLine_beginLine.bind fun _ _ _ => hstatement.bind fun stmt stmt' hstmt => ?_
  exact spreadsLine_endStatement.bind fun _ _ _ => spreadsLine_pure hstmt

end Statements

theorem spreadsLine_declaration (fuel : Nat) : SpreadsLine Stmt.unplaced (declaration fuel) (declaration fuel) := by
  induction fuel with
  | zero => exact spreadsLine_pure rfl
  | succ fuel ih => exact (ih.statementLine (fuel + 1)).recovering .nothing

theorem spreadsLine_program (fuel : Nat) : SpreadsLine (List.map Stmt.unplaced) (program fuel) (program fuel) :=
  (spreadsLine_declaration fuel).some.items fuel

/-! ## Whole texts -/

/-- A text that is read without a report may be spread over more lines inside parentheses: with blanks put in there,
and what follows one line further down, it is read without a report as the same statements but for lines. -/
theorem read_spread {limit : Nat} {front blanks back : List Token} {endLine : Int}
    (hread : (Program.read limit ⟨front ++ back, endLine⟩).reports = [])
    (hblanks : ∀ b ∈ blanks, b.isIndentation = true) (hopen : Cursor.parensOver 0 front ≠ 0) (endLine' : Int) :
    let spread := Program.read limit ⟨front ++ (blanks ++ back.map lowered), endLine'⟩
    spread.reports = [] ∧
      spread.statements.map Stmt.unplaced =
        (Program.read limit ⟨front ++ back, endLine⟩).statements.map Stmt.unplaced := by
  let text : Token.Stream := ⟨front ++ back, endLine⟩
  let spread : Token.Stream := ⟨front ++ (blanks ++ back.map lowered), endLine'⟩
  obtain ⟨statements, u, hprogram, hstatements, -, -⟩ := program_ends limit text
  have hread : u.reports = [] := by
    rw [← hread]
    exact congrArg Program.reports hstatements.symm
  have hreal : ∃ x ∈ front, x.isIndentation = false := by
    by_contra hnone
    apply hopen
    apply Cursor.parensOver_of_isIndentation
    intro x hx
    by_contra hne
    exact hnone ⟨x, hx, Bool.eq_false_iff.2 hne⟩
  have hstart : Cursor.Spread (.start limit text) (.start limit spread) :=
    ⟨rfl, rfl, rfl, rfl, Or.inl ⟨front, blanks, back, rfl, rfl, hblanks, hreal, hopen, rfl⟩⟩
  -- the longer text is read with more fuel, which changes nothing for the shorter one
  have hle : text.tokens.length ≤ spread.tokens.length := by
    simp only [text, spread, List.length_append, List.length_map]
    omega
  have hprogram' : program spread.tokens.length (.start limit text) = .ok statements u := by
    rw [program_eq_of_le (Nat.le_refl _) hle]
    exact hprogram
  obtain ⟨-, statements', v, hspread, hsame, huv⟩ :=
    (spreadsLine_program spread.tokens.length).spreads _ _ statements u rfl hstart ⟨hprogram', hread⟩
  have hresult : Program.read limit spread = ⟨statements', v.reports⟩ := by
    unfold Program.read
    rw [hspread]
  have hreports : v.reports = [] := by
    have hlength := huv.reports
    rw [hread] at hlength
    exact List.length_eq_zero_iff.1 hlength
  show (Program.read limit spread).reports = [] ∧
    (Program.read limit spread).statements.map Stmt.unplaced = (Program.read limit text).statements.map Stmt.unplaced
  rw [hresult, hstatements]
  exact ⟨hreports, hsame⟩

/-! ## Between parentheses -/

/-- Each parenthesis that closes one closes the last one that is open, and none stays open. -/
inductive Matched : List Token → Prop
  | nil : Matched []
  | cons {t : Token} {ts : List Token} (hleft : t.kind ≠ .leftParen) (hright : t.kind ≠ .rightParen)
      (h : Matched ts) : Matched (t :: ts)
  | parens {opening closing : Token} {inner ts : List Token} (hopening : opening.kind = .leftParen)
      (hinner : Matched inner) (hclosing : closing.kind = .rightParen) (h : Matched ts) :
      Matched (opening :: (inner ++ closing :: ts))

/-- Behind the first `k` tokens one is between a parenthesis and the one that closes it. -/
def Enclosed (tokens : List Token) (k : Nat) : Prop :=
  ∃ front opening inner closing back, tokens = front ++ opening :: (inner ++ closing :: back) ∧
    opening.kind = .leftParen ∧ Matched inner ∧ closing.kind = .rightParen ∧
    front.length < k ∧ k ≤ front.length + 1 + inner.length

theorem parensOver_append (n : Nat) (ts us : List Token) :
    Cursor.parensOver n (ts ++ us) = Cursor.parensOver (Cursor.parensOver n ts) us :=
  List.foldl_append

theorem Matched.parensOver {ts : List Token} (h : Matched ts) (n : Nat) : Cursor.parensOver n ts = n := by
  induction h generalizing n with
  | nil => rfl
  | @cons t ts hleft hright h ih =>
    have ht : Cursor.parensAfter n t.kind = n := by
      revert hleft hright
      cases t.kind <;> simp [Cursor.parensAfter]
    rw [Cursor.parensOver_cons, ht, ih]
  | parens hopening hinner hclosing h ihinner ih =>
    rw [Cursor.parensOver_cons, hopening, parensOver_append, ihinner, Cursor.parensOver_cons, hclosing]
    exact ih n

/-- No parenthesis that was open before is closed within matched ones. -/
theorem Matched.le_parensOver_take {ts : List Token} (h : Matched ts) (n k : Nat) :
    n ≤ Cursor.parensOver n (ts.take k) := by
  induction h generalizing n k with
  | nil => rw [List.take_nil]; rfl
  | @cons t ts hleft hright h ih =>
    cases k with
    | zero => exact Nat.le_refl n
    | succ k =>
      have ht : Cursor.parensAfter n t.kind = n := by
        revert hleft hright
        cases t.kind <;> simp [Cursor.parensAfter]
      rw [List.take_succ_cons, Cursor.parensOver_cons, ht]
      exact ih n k
  | @parens opening closing inner ts hopening hinner hclosing h ihinner ih =>
    cases k with
    | zero => exact Nat.le_refl n
    | succ k =>
      rw [List.take_succ_cons, Cursor.parensOver_cons, hopening, List.take_append, parensOver_append]
      cases hk : k - inner.length with
      | zero => exact Nat.le_trans (Nat.le_succ n) (ihinner (n + 1) k)
      | succ j =>
        rw [List.take_of_length_le (by omega), hinner.parensOver, List.take_succ_cons, Cursor.parensOver_cons,
          hclosing]
        exact ih n j

theorem Enclosed.parensOver_take {tokens : List Token} {k : Nat} (h : Enclosed tokens k) :
    Cursor.parensOver 0 (tokens.take k) ≠ 0 := by
  obtain ⟨front, opening, inner, closing, back, rfl, hopening, hinner, -, hfront, hle⟩ := h
  obtain ⟨j, rfl⟩ : ∃ j, k = front.length + (j + 1) := ⟨k - front.length - 1, by omega⟩
  have htake : (front ++ opening :: (inner ++ closing :: back)).take (front.length + (j + 1)) =
      front ++ opening :: inner.take j := by
    rw [List.take_length_add_append, List.take_succ_cons, List.take_append_of_le_length (by omega)]
  rw [htake, parensOver_append, Cursor.parensOver_cons, hopening]
  have hopen := hinner.le_parensOver_take (Cursor.parensOver 0 front + 1) j
  exact Nat.ne_of_gt (Nat.lt_of_lt_of_le (Nat.succ_pos _) hopen)

/-- **Line breaks between parentheses.**  Take a text that is read without a report, and a place in it that is inside
no token and between a parenthesis and the one that closes it.  With a line break put in there, and any blanks behind
it, the text is read without a report as well, and its statements are the same but for the lines of their tokens. -/
theorem read_inserted {limit : Nat} {before after ws : List Char}
    (hscan : (Token.scan (String.ofList (before ++ after))).reports = [])
    (hread : (Program.read limit (Token.scan (String.ofList (before ++ after))).stream).reports = [])
    (hboundary : Token.Boundary before after)
    (henclosed : Enclosed (Token.scan (String.ofList (before ++ after))).stream.tokens
      (Token.scan (String.ofList before)).stream.tokens.length)
    (hws : ∀ c ∈ ws, Token.Piece.isIndent c = true) :
    (Token.scan (Token.withBreak before ws after)).reports = [] ∧
      (Program.read limit (Token.scan (Token.withBreak before ws after)).stream).reports = [] ∧
      (Program.read limit (Token.scan (Token.withBreak before ws after)).stream).statements.map Stmt.unplaced =
        (Program.read limit (Token.scan (String.ofList (before ++ after))).stream).statements.map Stmt.unplaced := by
  obtain ⟨blanks, back, hblanks, htokens, htokens', hclean⟩ := Token.scan_inserted hboundary hscan hws
  refine ⟨hclean, ?_⟩
  have hopen := henclosed.parensOver_take
  rw [htokens, List.take_left] at hopen
  have hstream : (Token.scan (String.ofList (before ++ after))).stream =
      ⟨(Token.scan (String.ofList before)).stream.tokens ++ back, _⟩ :=
    congrArg (Token.Stream.mk · _) htokens
  have hstream' : (Token.scan (Token.withBreak before ws after)).stream =
      ⟨(Token.scan (String.ofList before)).stream.tokens ++ (blanks ++ back.map lowered), _⟩ :=
    congrArg (Token.Stream.mk · _) htokens'
  rw [hstream] at hread
  rw [hstream, hstream']
  exact read_spread hread hblanks hopen _

/-- A call in a block, up to its second argument. -/
def callFront : List Char :=
  ['i', 'f', ' ', 'a', ':', '\n', ' ', 'f', '(', 'a', ',']

/-- The second argument of the call, in parentheses of its own, and the end of the text. -/
def callBack : List Char :=
  ['(', 'b', ')', ')', '\n']

theorem boundary_callFront : Token.Boundary callFront callBack :=
  Token.boundary_of_split
    [⟨.word, ['i', 'f']⟩, ⟨.gap, [' ']⟩, ⟨.word, ['a']⟩, ⟨.sign .colon, [':']⟩, ⟨.lineBreak, ['\n']⟩,
      ⟨.indentation, [' ']⟩, ⟨.word, ['f']⟩, ⟨.sign .leftParen, ['(']⟩, ⟨.word, ['a']⟩, ⟨.sign .comma, [',']⟩]
    [⟨.sign .leftParen, ['(']⟩, ⟨.word, ['b']⟩, ⟨.sign .rightParen, [')']⟩, ⟨.sign .rightParen, [')']⟩,
      ⟨.lineBreak, ['\n']⟩]
    (by decide +kernel)

theorem enclosed_callFront :
    Enclosed (Token.scan (String.ofList (callFront ++ callBack))).stream.tokens
      (Token.scan (String.ofList callFront)).stream.tokens.length := by
  have hname : Matched [⟨.identifier, "b", .null, 2⟩] := .cons (by decide) (by decide) .nil
  have hgroup : Matched (⟨.leftParen, "(", .null, 2⟩ :: ([⟨.identifier, "b", .null, 2⟩] ++
      [⟨.rightParen, ")", .null, 2⟩])) :=
    .parens rfl hname rfl .nil
  refine ⟨[⟨.ifWord, "if", .null, 1⟩, ⟨.identifier, "a", .null, 1⟩, ⟨.colon, ":", .null, 1⟩,
    ⟨.space, " ", .null, 2⟩, ⟨.identifier, "f", .null, 2⟩], ⟨.leftParen, "(", .null, 2⟩,
    [⟨.identifier, "a", .null, 2⟩, ⟨.comma, ",", .null, 2⟩, ⟨.leftParen, "(", .null, 2⟩,
      ⟨.identifier, "b", .null, 2⟩, ⟨.rightParen, ")", .null, 2⟩], ⟨.rightParen, ")", .null, 2⟩, [],
    rfl, rfl, ?_, rfl, by decide +kernel, by decide +kernel⟩
  exact .cons (by decide) (by decide) (.cons (by decide) (by decide) hgroup)

theorem read_inserted_callFront :
    (Token.scan (Token.withBreak callFront ['\t'] callBack)).reports = [] ∧
      (Program.read 255 (Token.scan (Token.withBreak callFront ['\t'] callBack)).stream).reports = [] ∧
      (Program.read 255 (Token.scan (Token.withBreak callFront ['\t'] callBack)).stream).statements.map
          Stmt.unplaced =
        (Program.read 255 (Token.scan (String.ofList (callFront ++ callBack))).stream).statements.map
          Stmt.unplaced := by
  have htab : ∀ c ∈ ['\t'], Token.Piece.isIndent c = true := by
    intro c hc
    rw [List.mem_singleton.1 hc]
    rfl
  exact read_inserted (List.isEmpty_iff.1 (by decide +kernel)) (List.isEmpty_iff.1 (by decide +kernel))
    boundary_callFront enclosed_callFront htab

end Reading
end Offside
