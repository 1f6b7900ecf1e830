import Offside.Proofs.Reader.Bounds
import Offside.Proofs.Reader.Consumption

/-!
# Every spelling is read

Where the tokens of a line spell a tree and what follows cannot go on with it, the reader yields that tree.
Operators that group to the left are read by a loop, so a spelling up to some operator is read up to the
loop's state there: `Grammar.Reached` says this for expressions, tier by tier.

* `Cursor.Halts` — the next token is none of certain kinds;
* `Grammar.Spells.reached`, `Grammar.Spells.whole` — expressions;
* `Grammar.Statements.read` — statements, over the lines that spell them.
-/

set_option autoImplicit false

namespace Offside

open Token (Kind)
open Reading (Tier tiers)

/-! ## The next token -/

/-- The next token, if there is one, is none of the kinds. -/
def Cursor.Halts (s : Cursor) (p : Kind → Bool) : Prop :=
  ∀ t ∈ s.rest.head?, p t.kind = false

namespace Reading

open Step

variable {s u : Cursor} {p : Kind → Bool}

theorem accept?_of_halts (h : s.Halts p) : accept? p s = .ok none s := by
  unfold accept?
  cases hs : s.rest with
  | nil => rfl
  | cons t rest =>
    have ht : p t.kind = false := h t (by simp [hs])
    simp [ht]

theorem accept?_of_rest {t : Token} {rest : List Token} (hs : s.rest = t :: rest)
    (ht : p t.kind = true) : accept? p s = .ok (some t) (s.consume t rest) := by
  unfold accept?
  rw [hs]
  simp [ht]

theorem expect_of_rest {t : Token} {rest : List Token} {kind : Kind} {what : String}
    (hs : s.rest = t :: rest) (ht : t.kind = kind) : expect kind what s = .ok t (s.consume t rest) :=
  bind_of_ok (accept?_of_rest hs (by simp [ht]))

theorem halts_of_rest {t : Token} {rest : List Token} (hs : s.rest = t :: rest)
    (ht : p t.kind = false) : s.Halts p := by
  intro t' ht'
  rw [hs, List.head?_cons, Option.mem_some_iff] at ht'
  rw [← ht', ht]

theorem limitCount_of_lt {count : Nat} {what : String} (h : count < s.argumentLimit) :
    limitCount count what s = .ok () s := by
  unfold limitCount
  rw [if_neg (Nat.not_le_of_lt h)]

theorem check_of_rest {t : Token} {rest : List Token} (hs : s.rest = t :: rest) :
    check p s = .ok (p t.kind) s := by
  unfold check
  rw [hs]

end Reading

/-! ## Expressions -/

namespace Grammar

open Step Reading

/-- Tokens that go on with an expression of the given tiers. -/
def extends? (T : List Tier) (k : Kind) : Bool :=
  k == .leftParen || k == .dot || T.any fun tier => tier.isOperator k

/-- No operator of a tier goes on with an operand of that tier. -/
def Apart : List Tier → Prop
  | [] => True
  | tier :: more => (∀ k, tier.isOperator k = true → extends? more k = false) ∧ Apart more

theorem apart_tiers : Apart tiers := by
  refine ⟨?_, ?_, ?_, ?_, ?_, ?_, trivial⟩ <;> (intro k; cases k <;> decide)

theorem extends?_cons (tier : Tier) (more : List Tier) (k : Kind) :
    extends? (tier :: more) k = false ↔ tier.isOperator k = false ∧ extends? more k = false := by
  simp only [extends?, List.any_cons, Bool.or_eq_false_iff]
  constructor
  · rintro ⟨⟨hp, hd⟩, ht, hm⟩
    exact ⟨ht, ⟨hp, hd⟩, hm⟩
  · rintro ⟨ht, ⟨hp, hd⟩, hm⟩
    exact ⟨⟨hp, hd⟩, ht, hm⟩

/-- From every cursor that passes over the tokens, the levels of the given tiers are read up to the state of
the outermost loop behind the expression; with no tiers left, they yield the expression. -/
def Reached (limit : Nat) : List Tier → Expr Unit → List Token → Prop
  | [], e, ts => ∀ s u n, s.argumentLimit = limit → s.rest.length ≤ n + 1 → s.Passes ts u →
      u.Halts (extends? []) → levels (n + 1) (expression n) [] s = .ok e u
  | tier :: more, e, ts => ∀ s u n, s.argumentLimit = limit → s.rest.length ≤ n + 1 → s.Passes ts u →
      u.Halts (extends? more) →
      levels (n + 1) (expression n) (tier :: more) s =
        joinFrom tier (levels (n + 1) (expression n) more) (n + 1) e u

/-- Where nothing goes on with the expression, the loop ends with it. -/
theorem Reached.levels {limit : Nat} {T : List Tier} {e : Expr Unit} {ts : List Token}
    (h : Reached limit T e ts) {s u : Cursor} {n : Nat} (hlimit : s.argumentLimit = limit)
    (hs : s.rest.length ≤ n + 1) (hpass : s.Passes ts u) (hu : u.Halts (extends? T)) :
    levels (n + 1) (expression n) T s = .ok e u := by
  cases T with
  | nil => exact h s u n hlimit hs hpass hu
  | cons tier more =>
    rw [h s u n hlimit hs hpass fun t ht => ((extends?_cons tier more t.kind).1 (hu t ht)).2]
    exact bind_of_ok (accept?_of_halts fun t ht => ((extends?_cons tier more t.kind).1 (hu t ht)).1)

theorem Reached.tighter {limit : Nat} {tier : Tier} {more : List Tier} {e : Expr Unit} {ts : List Token}
    (h : Reached limit more e ts) : Reached limit (tier :: more) e ts := by
  intro s u n hlimit hs hpass hu
  exact bind_of_ok (h.levels hlimit hs hpass hu)

theorem Reached.join {limit : Nat} {tier : Tier} {more : List Tier} {left right : Expr Unit}
    {operator : Token} {as bs : List Token} (hapart : Apart (tier :: more))
    (hleft : Reached limit (tier :: more) left as) (hop : tier.isOperator operator.kind = true)
    (hright : Reached limit more right bs) :
    Reached limit (tier :: more) (tier.join left operator right) (as ++ operator :: bs) := by
  intro s u n hlimit hs hpass hu
  obtain ⟨m, hm, _, rest, hrest, hpass⟩ := Cursor.passes_append.1 hpass
  have hlen := hm.leads.length_le
  have hlt := Cursor.length_consume_lt hrest
  have hlt' := hpass.leads.length_le
  have hloop := hleft s m n hlimit hs hm (halts_of_rest hrest (hapart.1 _ hop))
  have hoperand := hright.levels (s := m.consume operator rest) (n := n)
    (hm.leads.argumentLimit.trans hlimit) (by omega) hpass hu
  rw [hloop, joinFrom, bind_of_ok (accept?_of_rest hrest hop)]
  refine (bind_of_ok hoperand).trans ?_
  exact agree_joinFrom tier (Agree.refl n _) ((moves_expression n).levels (n + 1) more) (Nat.le_refl n) _
    u (by omega)

theorem Reached.sign {limit : Nat} {e : Expr Unit} {operator : Token} {ts : List Token}
    (hop : isSign operator.kind = true) (h : Reached limit [] e ts) :
    Reached limit [] (.unary operator e) (operator :: ts) := by
  intro s u n hlimit hs hpass hu
  obtain ⟨_, rest, hrest, hpass⟩ := hpass
  have hlt := Cursor.length_consume_lt hrest
  have hoperand := h (s.consume operator rest) u n hlimit (by omega) hpass hu
  have hsame : signed (postfixed (expression n) (n + 1)) n (s.consume operator rest) =
      signed (postfixed (expression n) (n + 1)) (n + 1) (s.consume operator rest) :=
    agree_signed (Agree.refl n _) ((moves_expression n).postfixed (n + 1)) (Nat.le_refl n) _ (by omega)
  refine (bind_of_ok (accept?_of_rest hrest hop)).trans ?_
  exact map_of_ok (hsame.trans hoperand)

/-- From every cursor that passes over the tokens, an operand is read up to the loop over its calls and
fields. -/
def Grown (limit : Nat) (e : Expr Unit) (ts : List Token) : Prop :=
  ∀ s u n, s.argumentLimit = limit → s.rest.length ≤ n + 1 → s.Passes ts u →
    postfixed (expression n) (n + 1) s = suffixesFrom (expression n) (n + 1) (n + 1) e u

theorem suffixesFrom_of_halts {e : Reading (Expr Unit)} {bound fuel : Nat} {left : Expr Unit} {u : Cursor}
    {T : List Tier} (hu : u.Halts (extends? T)) : suffixesFrom e bound (fuel + 1) left u = .ok left u := by
  have hparen : u.Halts (· == .leftParen) := by
    intro t ht
    have := hu t ht
    simp only [extends?, Bool.or_eq_false_iff] at this
    exact this.1.1
  have hdot : u.Halts (· == .dot) := by
    intro t ht
    have := hu t ht
    simp only [extends?, Bool.or_eq_false_iff] at this
    exact this.1.2
  exact (bind_of_ok (accept?_of_halts hparen)).trans (bind_of_ok (accept?_of_halts hdot))

/-- The loop over calls and fields goes on the same with one repetition less allowed. -/
theorem suffixesFrom_succ {n : Nat} {left : Expr Unit} {u : Cursor} (hu : u.rest.length ≤ n) :
    suffixesFrom (expression n) (n + 1) n left u = suffixesFrom (expression n) (n + 1) (n + 1) left u :=
  agree_suffixesFrom (fun _ => Agree.refl _ _) (moves_expression n) (Nat.le_refl n) left u hu

theorem startsPrimary_not_isSign {k : Kind} (h : startsPrimary k = true) : isSign k = false := by
  revert h
  cases k <;> decide

theorem Grown.reached {limit : Nat} {e : Expr Unit} {ts : List Token} (hop : Operand limit e ts)
    (h : Grown limit e ts) : Reached limit [] e ts := by
  intro s u n hlimit hs hpass hu
  obtain ⟨t, us, rfl, ht⟩ := hop.head
  obtain ⟨_, rest, hrest, _⟩ := id hpass
  refine (bind_of_ok (accept?_of_halts (halts_of_rest hrest (startsPrimary_not_isSign ht)))).trans ?_
  exact (h s u n hlimit hs hpass).trans (suffixesFrom_of_halts hu)

/-- A smallest expression begins the loop over calls and fields. -/
theorem grown_of_primary {limit : Nat} {e : Expr Unit} {ts : List Token}
    (h : ∀ s u n, s.argumentLimit = limit → s.rest.length ≤ n + 1 → s.Passes ts u →
      primary (expression n) s = .ok e u) : Grown limit e ts :=
  fun s u n hlimit hs hpass => bind_of_ok (h s u n hlimit hs hpass)

theorem primaryFrom_of_literal {e : Reading (Expr Unit)} {t : Token} {value : Literal}
    (h : literalOf? t = some value) : primaryFrom e t = pure (.literal value) := by
  unfold primaryFrom
  split
  all_goals first
    | (rename_i hkind; simp [literalOf?, hkind] at h; done)
    | rw [h]; rfl

theorem grown_literal {limit : Nat} {t : Token} {value : Literal} (h : literalOf? t = some value) :
    Grown limit (.literal value) [t] := by
  refine grown_of_primary ?_
  rintro s u n - - ⟨_, rest, hrest, rfl⟩
  refine (bind_of_ok (accept?_of_rest hrest (startsPrimary_of_literalOf? h))).trans ?_
  exact congrFun (primaryFrom_of_literal h) _

theorem grown_name {limit : Nat} {t : Token} (h : t.kind = .identifier) :
    Grown limit (.name t ()) [t] := by
  refine grown_of_primary ?_
  rintro s u n - - ⟨_, rest, hrest, rfl⟩
  refine (bind_of_ok (accept?_of_rest hrest (by rw [h]; rfl))).trans ?_
  simp only [primaryFrom, h]
  rfl

theorem grown_thisRef {limit : Nat} {t : Token} (h : t.kind = .thisWord) :
    Grown limit (.thisRef t ()) [t] := by
  refine grown_of_primary ?_
  rintro s u n - - ⟨_, rest, hrest, rfl⟩
  refine (bind_of_ok (accept?_of_rest hrest (by rw [h]; rfl))).trans ?_
  simp only [primaryFrom, h]
  rfl

theorem grown_superRef {limit : Nat} {t dot method : Token} (h : t.kind = .superWord)
    (hdot : dot.kind = .dot) (hmethod : method.kind = .identifier) :
    Grown limit (.superRef t method ()) [t, dot, method] := by
  refine grown_of_primary ?_
  rintro s u n - - ⟨_, rest, hrest, _, rest', hrest', _, rest'', hrest'', rfl⟩
  refine (bind_of_ok (accept?_of_rest hrest (by rw [h]; rfl))).trans ?_
  simp only [primaryFrom, h]
  exact (bind_of_ok (expect_of_rest hrest' hdot)).trans (bind_of_ok (expect_of_rest hrest'' hmethod))

/-- Whole expressions, wherever nothing goes on with them. -/
def Whole (limit : Nat) (e : Expr Unit) (ts : List Token) : Prop :=
  ∀ s u n, s.argumentLimit = limit → s.rest.length ≤ n → s.Passes ts u → u.Halts (extends? tiers) →
    expression n s = .ok e u

theorem Reached.whole {limit : Nat} {e : Expr Unit} {ts : List Token} (hspells : Spells limit tiers e ts)
    (h : Reached limit tiers e ts) : Whole limit e ts := by
  intro s u n hlimit hs hpass hu
  obtain ⟨t, us, rfl, -⟩ := hspells.head
  obtain ⟨_, rest, hrest, _⟩ := id hpass
  cases n with
  | zero => rw [hrest] at hs; exact absurd hs (Nat.not_succ_le_zero _)
  | succ n => exact h.levels hlimit hs hpass hu

theorem grown_group {limit : Nat} {e : Expr Unit} {ts : List Token} {opening closing : Token}
    (ho : opening.kind = .leftParen) (h : Whole limit e ts) (hc : closing.kind = .rightParen) :
    Grown limit (.group e) (opening :: (ts ++ [closing])) := by
  refine grown_of_primary ?_
  rintro s u n hlimit hs ⟨_, rest, hrest, hpass⟩
  obtain ⟨m, hm, _, rest', hrest', rfl⟩ := Cursor.passes_append.1 hpass
  have hlt := Cursor.length_consume_lt hrest
  have hinner := h (s.consume opening rest) m n hlimit (by omega) hm (halts_of_rest hrest' (by rw [hc]; rfl))
  refine (bind_of_ok (accept?_of_rest hrest (by rw [ho]; rfl))).trans ?_
  simp only [primaryFrom, ho]
  exact (bind_of_ok hinner).trans (bind_of_ok (expect_of_rest hrest' hc))

theorem Grown.getField {limit : Nat} {object : Expr Unit} {ts : List Token} {dot field : Token}
    (h : Grown limit object ts) (hdot : dot.kind = .dot) (hfield : field.kind = .identifier) :
    Grown limit (.getField object field) (ts ++ [dot, field]) := by
  intro s u n hlimit hs hpass
  obtain ⟨m, hm, _, rest, hrest, _, rest', hrest', rfl⟩ := Cursor.passes_append.1 hpass
  have hlen := hm.leads.length_le
  have hlt := Cursor.length_consume_lt hrest
  have hlt' := Cursor.length_consume_lt hrest'
  refine (h s m n hlimit hs hm).trans ?_
  refine (bind_of_ok (accept?_of_halts (halts_of_rest hrest (by rw [hdot]; rfl)))).trans ?_
  refine (bind_of_ok (accept?_of_rest hrest (by rw [hdot]; rfl))).trans ?_
  refine (bind_of_ok (expect_of_rest hrest' hfield)).trans ?_
  exact suffixesFrom_succ (by omega)

/-- The arguments of a call, read up to its closing parenthesis. -/
def Collected (limit : Nat) (es : List (Expr Unit)) (ts : List Token) : Prop :=
  ∀ s u n k read, s.argumentLimit = limit → s.rest.length ≤ n → s.rest.length < k → s.Passes ts u →
    u.Halts (fun k => extends? tiers k || k == .comma) → read.length + es.length ≤ limit →
    argumentsFrom (expression n) k read s = .ok (read ++ es) u

theorem Whole.collected_one {limit : Nat} {e : Expr Unit} {ts : List Token} (h : Whole limit e ts) :
    Collected limit [e] ts := by
  intro s u n k read hlimit hs hk hpass hu hcount
  have hread : read.length < s.argumentLimit := by
    rw [hlimit]
    exact hcount
  have hextends : u.Halts (extends? tiers) := fun t ht => ((Bool.or_eq_false_iff).1 (hu t ht)).1
  have hcomma : u.Halts (· == .comma) := fun t ht => ((Bool.or_eq_false_iff).1 (hu t ht)).2
  cases k with
  | zero => exact absurd hk (Nat.not_lt_zero _)
  | succ k =>
    refine (bind_of_ok (limitCount_of_lt hread)).trans ?_
    refine (bind_of_ok (h s u n hlimit hs hpass hextends)).trans ?_
    exact bind_of_ok (accept?_of_halts hcomma)

theorem Whole.collected_more {limit : Nat} {e : Expr Unit} {es : List (Expr Unit)} {as bs : List Token}
    {comma : Token} (h : Whole limit e as) (hcomma : comma.kind = .comma) (hes : Collected limit es bs) :
    Collected limit (e :: es) (as ++ comma :: bs) := by
  intro s u n k read hlimit hs hk hpass hu hcount
  obtain ⟨m, hm, _, rest, hrest, hpass⟩ := Cursor.passes_append.1 hpass
  have hlen := hm.leads.length_le
  have hlt := Cursor.length_consume_lt hrest
  rw [List.length_cons] at hcount
  have hread : read.length < s.argumentLimit := by omega
  cases k with
  | zero => exact absurd hk (Nat.not_lt_zero _)
  | succ k =>
    refine (bind_of_ok (limitCount_of_lt hread)).trans ?_
    refine (bind_of_ok (h s m n hlimit hs hm (halts_of_rest hrest (by rw [hcomma]; rfl)))).trans ?_
    refine (bind_of_ok (accept?_of_rest hrest (by rw [hcomma]; rfl))).trans ?_
    have hnext := hes (m.consume comma rest) u n k (read ++ [e]) (hm.leads.argumentLimit.trans hlimit)
      (by omega) (by omega) hpass hu (by simp only [List.length_append, List.length_singleton]; omega)
    rw [List.append_assoc] at hnext
    exact hnext

theorem startsExpression_ne_rightParen {k : Kind} (h : startsExpression k = true) :
    (k == .rightParen) = false := by
  revert h
  cases k <;> decide

/-- The arguments of a call between its parentheses. -/
theorem argumentList_of_listed {limit n : Nat} {es : List (Expr Unit)} {ts rest : List Token}
    {closing : Token} {s u : Cursor} (hlisted : Listed limit es ts)
    (h : es ≠ [] → Collected limit es ts) (hlimit : s.argumentLimit = limit) (hs : s.rest.length ≤ n)
    (hpass : s.Passes ts u) (hu : u.rest = closing :: rest) (hc : closing.kind = .rightParen)
    (hcount : es.length ≤ limit) : argumentList (expression n) (n + 1) s = .ok es u := by
  by_cases hes : es = []
  · subst hes
    cases hlisted
    cases hpass
    refine (bind_of_ok (check_of_rest hu)).trans ?_
    rw [hc]
    rfl
  · obtain ⟨t, us, rfl, ht⟩ : ∃ t us, ts = t :: us ∧ startsExpression t.kind = true := by
      cases hlisted with
      | none => exact absurd rfl hes
      | one hspells => exact hspells.head
      | more hspells _ _ _ =>
        obtain ⟨t, us, rfl, ht⟩ := hspells.head
        exact ⟨t, _, rfl, ht⟩
    obtain ⟨_, rest', hrest, _⟩ := id hpass
    have hcollect := h hes s u n (n + 1) [] hlimit hs (Nat.lt_succ_of_le hs) hpass
      (halts_of_rest hu (by rw [hc]; rfl)) (by simpa using hcount)
    refine (bind_of_ok (check_of_rest hrest)).trans ?_
    rw [startsExpression_ne_rightParen ht]
    exact hcollect

theorem Grown.call {limit : Nat} {callee : Expr Unit} {arguments : List (Expr Unit)}
    {as bs : List Token} {opening closing : Token} (h : Grown limit callee as)
    (ho : opening.kind = .leftParen) (hlisted : Listed limit arguments bs)
    (hcollected : arguments ≠ [] → Collected limit arguments bs) (hcount : arguments.length ≤ limit)
    (hc : closing.kind = .rightParen) :
    Grown limit (.call callee closing arguments) (as ++ opening :: (bs ++ [closing])) := by
  intro s u n hlimit hs hpass
  obtain ⟨m, hm, _, rest, hrest, hpass⟩ := Cursor.passes_append.1 hpass
  obtain ⟨m', hm', _, rest', hrest', rfl⟩ := Cursor.passes_append.1 hpass
  have hlen := hm.leads.length_le
  have hlt := Cursor.length_consume_lt hrest
  have hlen' := hm'.leads.length_le
  have hlt' := Cursor.length_consume_lt hrest'
  have harguments := argumentList_of_listed hlisted hcollected (s := m.consume opening rest) (n := n)
    (hm.leads.argumentLimit.trans hlimit) (by omega) hm' hrest' hc hcount
  refine (h s m n hlimit hs hm).trans ?_
  refine (bind_of_ok (accept?_of_rest hrest (by rw [ho]; rfl))).trans ?_
  have hcall : finishCall (expression n) (n + 1) callee (m.consume opening rest) =
      .ok (.call callee closing arguments) (m'.consume closing rest') :=
    (bind_of_ok harguments).trans (bind_of_ok (expect_of_rest hrest' hc))
  refine (bind_of_ok hcall).trans ?_
  exact suffixesFrom_succ (by omega)

mutual

/-- Operands joined by operators are read up to the loop of the loosest tier. -/
theorem Spells.reached {limit : Nat} {T : List Tier} {e : Expr Unit} {ts : List Token}
    (hT : Apart T) : Spells limit T e ts → Reached limit T e ts
  | .tighter h => (h.reached hT.2).tighter
  | .join hl hop hr => .join hT (hl.reached hT) hop (hr.reached hT.2)
  | .sign hop h => .sign hop (h.reached hT)
  | .operand h => h.grown.reached h

theorem Operand.grown {limit : Nat} {e : Expr Unit} {ts : List Token} :
    Operand limit e ts → Grown limit e ts
  | .literal h => grown_literal h
  | .name h => grown_name h
  | .thisRef h => grown_thisRef h
  | .superRef h hd hm => grown_superRef h hd hm
  | .group ho h hc => grown_group ho ((h.reached apart_tiers).whole h) hc
  | .getField h hd hf => h.grown.getField hd hf
  | .call h ho hl hn hc => h.grown.call ho hl (fun hne => hl.collected hne) hn hc

theorem Listed.collected {limit : Nat} {es : List (Expr Unit)} {ts : List Token} :
    Listed limit es ts → es ≠ [] → Collected limit es ts
  | .none, hne => absurd rfl hne
  | .one h, _ => ((h.reached apart_tiers).whole h).collected_one
  | .more h hc hl hne, _ => ((h.reached apart_tiers).whole h).collected_more hc (hl.collected hne)

end

/-- An expression is read wherever its tokens stand and nothing goes on with it. -/
theorem Spells.whole {limit : Nat} {e : Expr Unit} {ts : List Token} (h : Spells limit tiers e ts) :
    Whole limit e ts :=
  (h.reached apart_tiers).whole h

/-! ## Ends of lines -/

/-- Tokens that go on with a statement. -/
def goesOn (k : Kind) : Bool :=
  extends? tiers k || k == .toWord

/-- The next token is on another line and does not go on with the statement. -/
def Breaks (s : Cursor) : Prop :=
  ∀ t ∈ s.rest.head?, t.line ≠ s.lastLine ∧ goesOn t.kind = false

theorem Breaks.halts {s : Cursor} (h : Breaks s) : s.Halts (extends? tiers) :=
  fun t ht => ((Bool.or_eq_false_iff).1 (h t ht).2).1

theorem Breaks.halts_to {s : Cursor} (h : Breaks s) : s.Halts (· == .toWord) :=
  fun t ht => ((Bool.or_eq_false_iff).1 (h t ht).2).2

theorem Breaks.relayout (s : Cursor) (l : Layout) (h : Breaks s) : Breaks { s with layout := l } :=
  h

/-- Behind lines there is an end of a line. -/
theorem Breaks.reads {s u : Cursor} {lines : List Line} (h : Breaks s) (hr : s.Reads Breaks lines u) :
    Breaks u := by
  induction lines generalizing s with
  | nil => cases hr; exact h
  | cons line lines ih =>
    obtain ⟨_, m, _, hm, hr⟩ := hr
    exact ih hm hr

/-- The text ends or goes on with a line of a block further out. -/
def Stops (l : Layout) (s : Cursor) : Prop :=
  (lineRun s.rest).2 = [] ∨ l.closes (lineRun s.rest).1 = true

/-- The text ends or goes on with a line of the innermost block or one further out. -/
def Leaves (l : Layout) (s : Cursor) : Prop :=
  Stops l s ∨ l.Holds (lineRun s.rest).1

/-- The text ends or goes on with a line that is no alternative to a branch of the innermost block. -/
def After (l : Layout) (s : Cursor) : Prop :=
  Stops l s ∨ l.Holds (lineRun s.rest).1 ∧ ∀ t ∈ (lineRun s.rest).2.head?, t.kind ≠ .elseWord

theorem After.leaves {l : Layout} {s : Cursor} (h : After l s) : Leaves l s :=
  h.imp_right And.left

/-- A line that leaves a block stops the block inside it. -/
theorem Leaves.stops {l inner : Layout} {s : Cursor} (h : Leaves l s) (hl : l.Nested)
    (ho : l.Opens inner) : Stops inner s := by
  rcases h with (hend | hclose) | hholds
  · exact Or.inl hend
  · exact Or.inr (Layout.closes_of_opens hl ho hclose)
  · exact Or.inr (Layout.closes_of_holds ho hholds)

/-! ## Simple statements -/

theorem Operand.spells {limit : Nat} {e : Expr Unit} {ts : List Token} (h : Operand limit e ts)
    (T : List Tier) : Spells limit T e ts := by
  induction T with
  | nil => exact .operand h
  | cons tier more ih => exact .tighter ih

theorem Simple.read {limit n : Nat} {stmt : Stmt Unit} {ts : List Token} {s u : Cursor}
    (h : Simple limit stmt ts) (hlimit : s.argumentLimit = limit) (hs : s.rest.length ≤ n)
    (hpass : s.Passes ts u) (hu : Breaks u) : assignment n s = .ok stmt u := by
  -- A target is an operand; behind it stands the word in front of the value.
  have htarget {target value : Expr Unit} {as bs : List Token} {mark : Token}
      (hop : Operand limit target as) (hmark : mark.kind = .toWord) (hv : Spells limit tiers value bs)
      (hpass : s.Passes (as ++ mark :: bs) u) :
      assignment n s = assignTo target mark value u := by
    obtain ⟨m, hm, _, rest, hrest, hpass⟩ := Cursor.passes_append.1 hpass
    have hlen := hm.leads.length_le
    have hlt := Cursor.length_consume_lt hrest
    have hfirst := (hop.spells tiers).whole s m n hlimit hs hm (halts_of_rest hrest (by rw [hmark]; rfl))
    have hvalue := hv.whole (m.consume mark rest) u n (hm.leads.argumentLimit.trans hlimit) (by omega)
      hpass hu.halts
    refine (bind_of_ok hfirst).trans ((bind_of_ok (accept?_of_rest hrest (by rw [hmark]; rfl))).trans ?_)
    exact bind_of_ok hvalue
  cases h with
  | evaluate he =>
    refine (bind_of_ok (he.whole s u n hlimit hs hpass hu.halts)).trans ?_
    exact bind_of_ok (accept?_of_halts hu.halts_to)
  | assign hn hm hv => exact htarget (.name hn) hm hv hpass
  | setField ho hd hf hm hv => exact htarget (.getField ho hd hf) hm hv (by simpa using hpass)

theorem GivenBack.read {limit n : Nat} {word : Token} {stmt : Stmt Unit} {ts : List Token}
    {s u : Cursor} (h : GivenBack limit word stmt ts) (hlimit : s.argumentLimit = limit)
    (hs : s.rest.length ≤ n) (hline : s.lastLine = word.line) (hpass : s.Passes ts u) (hu : Breaks u) :
    givenBack n word s = .ok stmt u := by
  have hget : (get : Reading Cursor) s = .ok s s := rfl
  cases h with
  | nothing =>
    have hsame : u = s := hpass
    rw [hsame] at hu ⊢
    have hother : (!s.rest.isEmpty && s.current.line == word.line) = false := by
      cases hrest : s.rest with
      | nil => rfl
      | cons t rest =>
        have := (hu t (by simp [hrest])).1
        simpa [Cursor.current, Cursor.firstOf, hrest, ← hline] using this
    refine (bind_of_ok hget).trans ?_
    rw [hother]
    rfl
  | value hv hsame =>
    obtain ⟨t, us, rfl, -⟩ := hv.head
    obtain ⟨_, rest, hrest, _⟩ := id hpass
    have hcurrent : (!s.rest.isEmpty && s.current.line == word.line) = true := by
      simpa [Cursor.current, Cursor.firstOf, hrest] using hsame t (by simp)
    refine (bind_of_ok hget).trans ?_
    rw [hcurrent]
    exact map_of_ok (hv.whole s u n hlimit hs hpass hu.halts)

theorem Params.read {limit : Nat} {names ts : List Token} (h : Params names ts) (hne : names ≠ []) :
    ∀ {s u : Cursor} {k : Nat} {r : List Token}, s.argumentLimit = limit → s.rest.length < k →
      s.Passes ts u → u.Halts (· == .comma) → r.length + names.length ≤ limit →
      paramsFrom k r s = .ok (r ++ names) u := by
  induction h with
  | none => exact absurd rfl hne
  | one hn =>
    rintro s u k r hlimit hk ⟨_, rest, hrest, rfl⟩ hu hcount
    cases k with
    | zero => exact absurd hk (Nat.not_lt_zero _)
    | succ k =>
      refine (bind_of_ok (limitCount_of_lt (by rw [hlimit]; exact hcount))).trans ?_
      refine (bind_of_ok (expect_of_rest hrest hn)).trans ?_
      exact bind_of_ok (accept?_of_halts hu)
  | @more name comma _ _ hn hc _ hne' ih =>
    rintro s u k r hlimit hk ⟨_, rest, hrest, _, rest', hrest', hpass⟩ hu hcount
    have hlt := Cursor.length_consume_lt hrest
    have hlt' := Cursor.length_consume_lt hrest'
    rw [List.length_cons] at hcount
    cases k with
    | zero => exact absurd hk (Nat.not_lt_zero _)
    | succ k =>
      refine (bind_of_ok (limitCount_of_lt (by omega))).trans ?_
      refine (bind_of_ok (expect_of_rest hrest hn)).trans ?_
      refine (bind_of_ok (accept?_of_rest hrest' (by rw [hc]; rfl))).trans ?_
      have hnext := ih hne' (s := (s.consume name rest).consume comma rest') (k := k) (r := r ++ [name])
        hlimit (by omega) hpass hu (by simp only [List.length_append, List.length_singleton]; omega)
      rw [List.append_assoc] at hnext
      exact hnext

/-- The parameters of a function between their parentheses. -/
theorem Params.read_enclosed {limit n : Nat} {names ts : List Token} {opening closing : Token}
    {w : String} {s u : Cursor} (h : Params names ts) (ho : opening.kind = .leftParen)
    (hcount : names.length ≤ limit) (hc : closing.kind = .rightParen) (hlimit : s.argumentLimit = limit)
    (hs : s.rest.length ≤ n) (hpass : s.Passes (opening :: (ts ++ [closing])) u) :
    enclosedParams (n + 1) w s = .ok names u := by
  obtain ⟨_, rest, hrest, hpass⟩ := hpass
  obtain ⟨m, hm, _, rest', hrest', rfl⟩ := Cursor.passes_append.1 hpass
  have hlt := Cursor.length_consume_lt hrest
  refine (bind_of_ok (expect_of_rest hrest ho)).trans ?_
  have hparams : paramList (n + 1) (s.consume opening rest) = .ok names m := by
    by_cases hnames : names = []
    · subst hnames
      cases h
      have hsame : m = s.consume opening rest := hm
      refine (bind_of_ok (check_of_rest (hsame ▸ hrest'))).trans ?_
      rw [hc, hsame]
      rfl
    · obtain ⟨t, us, rfl, ht⟩ : ∃ t us, ts = t :: us ∧ t.kind = .identifier := by
        cases h with
        | none => exact absurd rfl hnames
        | one hn => exact ⟨_, _, rfl, hn⟩
        | more hn _ _ _ => exact ⟨_, _, rfl, hn⟩
      obtain ⟨_, rest'', hrest'', _⟩ := id hm
      have hread := h.read hnames (s := s.consume opening rest) (k := n + 1) (r := []) hlimit (by omega) hm
        (halts_of_rest hrest' (by rw [hc]; rfl)) (by simpa using hcount)
      refine (bind_of_ok (check_of_rest hrest'')).trans ?_
      rw [ht]
      exact hread
  exact (bind_of_ok hparams).trans (bind_of_ok (expect_of_rest hrest' hc))

theorem ReturnType.read {type : Option Token} {ts : List Token} {s u : Cursor} {rest : List Token}
    {colon : Token} (h : ReturnType type ts) (hpass : s.Passes ts u) (hu : u.rest = colon :: rest)
    (hcolon : colon.kind = .colon) : returnType s = .ok type u := by
  cases h with
  | none =>
    have hsame : u = s := hpass
    rw [hsame] at hu ⊢
    exact bind_of_ok (accept?_of_halts (halts_of_rest hu (by rw [hcolon]; rfl)))
  | some hc ht =>
    obtain ⟨_, rest, hrest, _, rest', hrest', rfl⟩ := hpass
    refine (bind_of_ok (accept?_of_rest hrest (by rw [hc]; rfl))).trans ?_
    refine bind_of_ok (accept?_of_rest hrest' ?_)
    rcases ht with ht | ht <;> (rw [ht]; rfl)

theorem Superclass.read {parent : Option (Token × Unit)} {ts : List Token} {s u : Cursor}
    {rest : List Token} {colon : Token} (h : Superclass parent ts) (hpass : s.Passes ts u)
    (hu : u.rest = colon :: rest) (hcolon : colon.kind = .colon) : superclass s = .ok parent u := by
  cases h with
  | none =>
    have hsame : u = s := hpass
    rw [hsame] at hu ⊢
    exact bind_of_ok (accept?_of_halts (halts_of_rest hu (by rw [hcolon]; rfl)))
  | some hc hn =>
    obtain ⟨_, rest, hrest, _, rest', hrest', rfl⟩ := hpass
    refine (bind_of_ok (accept?_of_rest hrest (by rw [hc]; rfl))).trans ?_
    exact bind_of_ok (expect_of_rest hrest' hn)

/-! ## Lines -/

section Lines

variable {α : Type} {limit k n : Nat} {l : Layout} {s m u : Cursor} {item : Reading (Option α)}

theorem items_of_stops (hs : s.layout = l) (h : Stops l s) : items item k s = .ok [] s := by
  cases k with
  | zero => rfl
  | succ k =>
    have hstop : ((lineRun s.rest).2.isEmpty || s.layout.closes (lineRun s.rest).1) = true := by
      rcases h with hend | hclose
      · rw [hend]
        rfl
      · rw [hs, hclose, Bool.or_true]
    unfold items
    simp only [hstop, if_true]

theorem items_of_line {a : α} {as : List α} (hl : l.Nested) (hs : s.layout = l)
    (hholds : l.Holds (lineRun s.rest).1) (hline : (lineRun s.rest).2 ≠ [])
    (hitem : item s = .ok (some a) m) (hrest : items item k m = .ok as u) :
    items item (k + 1) s = .ok (a :: as) u := by
  have hopen := Layout.closes_of_continues ((Layout.continues_iff hl).2 hholds)
  have hmore : ((lineRun s.rest).2.isEmpty || s.layout.closes (lineRun s.rest).1) = false := by
    rw [hs, hopen, Bool.or_false]
    exact List.isEmpty_eq_false_iff.2 hline
  unfold items
  simp only [hmore, Bool.false_eq_true, if_false]
  exact (bind_of_ok hitem).trans (bind_of_ok hrest)

theorem beginLine_of_holds (hl : l.Nested) (hs : s.layout = l) (h : l.Holds (lineRun s.rest).1) :
    beginLine s = .ok () s.begun := by
  have hcontinues : s.layout.continues (lineRun s.rest).1 = true := by
    rw [hs]
    exact (Layout.continues_iff hl).2 h
  unfold beginLine
  simp only [hcontinues, if_true]
  rfl

theorem endStatement_of_breaks (h : Breaks s) : endStatement s = .ok () s := by
  unfold endStatement
  split
  · rfl
  · rename_i t rest hrest
    have hline : (t.line == s.lastLine) = false := by simpa using (h t (by simp [hrest])).1
    simp [hline]

theorem indented_of_reads {as : List α} {inner : Layout} (hs : s.layout = l) (ho : l.Opens inner)
    (hholds : inner.Holds (lineRun s.rest).1)
    (h : items item k { s with layout := inner } = .ok as { u with layout := inner })
    (hu : u.layout = l) : indented k item s = .ok as u := by
  have henter : s.layout.enter? (lineRun s.rest).1 = .ok inner := by
    rw [hs]
    exact Layout.enter?_eq_ok_iff.2 ⟨ho, hholds⟩
  unfold indented
  simp only [henter]
  unfold within
  rw [h]
  simp only [hs, ← hu]

end Lines

/-! ## Statements -/

/-- The statement is read from every cursor that stands behind the indentation of its first line. -/
def ReadStatement (limit : Nat) (l : Layout) (stmt : Stmt Unit) (ts : List Token) (inner : List Line) :
    Prop :=
  ∀ s m u n, Stands limit l (n + 1) s → s.Passes ts m → Breaks m → m.Reads Breaks inner u → After l u →
    statement (n + 1) (declaration n) s = .ok stmt u

/-- The block is read from every cursor that stands in front of its first line. -/
def ReadBlock (limit : Nat) (l : Layout) (body : List (Stmt Unit)) (lines : List Line) : Prop :=
  ∀ s u n, Stands limit l n s → s.Reads Breaks lines u → Leaves l u →
    block (n + 1) (declaration n) s = .ok body u

def ReadFunction (limit : Nat) (l : Layout) (r : Routine Unit) (ts : List Token) (inner : List Line) :
    Prop :=
  ∀ s m u n what, Stands limit l n s → s.Passes ts m → m.Reads Breaks inner u → Leaves l u →
    routine (n + 1) (declaration n) what s = .ok r u

def ReadBranch (limit : Nat) (l : Layout) (stmt : Stmt Unit) (ts : List Token) (inner : List Line) :
    Prop :=
  ∀ s m u n k, Stands limit l n s → s.rest.length < k → s.Passes ts m → m.Reads Breaks inner u →
    After l u → branch (n + 1) (declaration n) k s = .ok stmt u

def ReadOtherwise (limit : Nat) (l : Layout) (other : Option (Stmt Unit)) (lines : List Line) : Prop :=
  ∀ s u n k, Stands limit l n s → s.rest.length ≤ k → s.Reads Breaks lines u → After l u →
    otherwise (n + 1) (declaration n) (branch (n + 1) (declaration n) k) s = .ok other u

def ReadStatements (limit : Nat) (l : Layout) (ss : List (Stmt Unit)) (lines : List Line) : Prop :=
  ∀ s u n k, Stands limit l n s → s.rest.length ≤ k → s.Reads Breaks lines u → Stops l u →
    items (some <$> declaration n) k s = .ok ss u

def ReadMethods (limit : Nat) (l : Layout) (rs : List (Routine Unit)) (lines : List Line) : Prop :=
  ∀ s u n k, Stands limit l n s → s.rest.length ≤ k → s.Reads Breaks lines u → Stops l u →
    items (method (n + 1) (declaration n)) k s = .ok rs u

section Statements

variable {limit n : Nat} {l : Layout} {s m u : Cursor}

/-- A statement on its line, with the indentation in front and the line break behind it. -/
theorem ReadStatement.line {stmt : Stmt Unit} {ts : List Token} {inner : List Line}
    (h : ReadStatement limit l stmt ts inner) (hl : l.Nested) (hs : Stands limit l (n + 1) s)
    (hr : s.Reads Breaks (⟨l, ts⟩ :: inner) u) (hu : After l u) :
    declaration (n + 1) s = .ok stmt u := by
  obtain ⟨hholds, m, hpass, hm, hr⟩ := hr
  have hstmt := h s.begun m u n hs.begun hpass hm hr hu
  have hline : statementLine (n + 1) (declaration n) s = .ok stmt u :=
    (bind_of_ok (beginLine_of_holds hl hs.layout hholds)).trans
      ((bind_of_ok hstmt).trans (bind_of_ok (endStatement_of_breaks (hm.reads hr))))
  show recovering _ _ s = _
  unfold recovering
  rw [hline]

/-- The statement that a word introduces. -/
theorem readStatement_of_word {stmt : Stmt Unit} {word : Token} {ts : List Token} {inner : List Line}
    (hw : introduces word.kind = true)
    (h : ∀ s m u n, Stands limit l n s → s.lastLine = word.line → s.Passes ts m → Breaks m →
      m.Reads Breaks inner u → After l u → statementFrom (n + 1) (declaration n) word s = .ok stmt u) :
    ReadStatement limit l stmt (word :: ts) inner := by
  rintro s m u n hs ⟨_, rest, hrest, hpass⟩ hm hr hu
  have hstands := hs.consume hrest (isPlain_of_introduces hw)
  exact (bind_of_ok (accept?_of_rest hrest hw)).trans
    (h (s.consume word rest) m u n hstands rfl hpass hm hr hu)

theorem not_introduces_of_startsExpression {k : Kind} (h : startsExpression k = true) :
    introduces k = false := by
  revert h
  cases k <;> decide

theorem Simple.readStatement {stmt : Stmt Unit} {set ts : List Token} (hset : SetWord set)
    (h : Simple limit stmt ts) : ReadStatement limit l stmt (set ++ ts) [] := by
  cases hset with
  | absent =>
    rintro s m u n hs hpass hm rfl hu
    obtain ⟨t, us, rfl, ht⟩ := h.head
    obtain ⟨_, rest, hrest, _⟩ := id hpass
    have hnone := accept?_of_halts (halts_of_rest hrest (not_introduces_of_startsExpression ht))
    exact (bind_of_ok hnone).trans (h.read hs.argumentLimit hs.length hpass hm)
  | present hw =>
    refine readStatement_of_word (by rw [hw]; rfl) ?_
    rintro s m u n hs - hpass hm rfl -
    simp only [statementFrom, hw]
    exact h.read hs.argumentLimit (Nat.le_succ_of_le hs.length) hpass hm

theorem GivenBack.readStatement {stmt : Stmt Unit} {word : Token} {ts : List Token}
    (hw : word.kind = .returnWord) (h : GivenBack limit word stmt ts) :
    ReadStatement limit l stmt (word :: ts) [] := by
  refine readStatement_of_word (by rw [hw]; rfl) ?_
  rintro s m u n hs hline hpass hm rfl -
  simp only [statementFrom, hw]
  exact h.read hs.argumentLimit (Nat.le_succ_of_le hs.length) hline hpass hm

theorem readStatement_print {e : Expr Unit} {word : Token} {ts : List Token} (hw : word.kind = .printWord)
    (h : Spells limit tiers e ts) : ReadStatement limit l (.print e) (word :: ts) [] := by
  refine readStatement_of_word (by rw [hw]; rfl) ?_
  rintro s m u n hs - hpass hm rfl -
  simp only [statementFrom, hw]
  exact map_of_ok (h.whole s u (n + 1) hs.argumentLimit (Nat.le_succ_of_le hs.length) hpass hm.halts)

theorem ReadBlock.readStatement {body : List (Stmt Unit)} {colon : Token} {inner : List Line}
    (hc : colon.kind = .colon) (h : ReadBlock limit l body inner) :
    ReadStatement limit l (.block body) [colon] inner := by
  refine readStatement_of_word (by rw [hc]; rfl) ?_
  rintro s m u n hs - rfl - hr hu
  simp only [statementFrom, hc]
  exact map_of_ok (h _ u n hs hr hu.leaves)

/-- A condition with the colon behind it, in front of a block. -/
theorem read_condition {condition : Expr Unit} {ts : List Token} {colon : Token}
    (hcond : Spells limit tiers condition ts) (hc : colon.kind = .colon) (hs : Stands limit l n s)
    (hpass : s.Passes (ts ++ [colon]) m) :
    ∃ v rest, expression (n + 1) s = .ok condition v ∧ v.rest = colon :: rest ∧ m = v.consume colon rest ∧
      Stands limit l n m := by
  obtain ⟨v, hv, hcolon, rest, hrest, rfl⟩ := Cursor.passes_append.1 hpass
  have hvalue := hcond.whole s v (n + 1) hs.argumentLimit (Nat.le_succ_of_le hs.length) hv
    (halts_of_rest hrest (by rw [hc]; rfl))
  have hbalanced : Balanced (ts ++ [colon]) := hcond.balanced.append (.single (by rw [hc]; rfl))
  exact ⟨v, rest, hvalue, hrest, rfl, hs.passes hbalanced hpass⟩

theorem ReadBlock.readStatement_loop {condition : Expr Unit} {body : List (Stmt Unit)} {ts : List Token}
    {word colon : Token} {inner : List Line} (hw : word.kind = .whileWord)
    (hcond : Spells limit tiers condition ts) (hc : colon.kind = .colon)
    (h : ReadBlock limit l body inner) :
    ReadStatement limit l (.loop condition (.block body)) (word :: (ts ++ [colon])) inner := by
  refine readStatement_of_word (by rw [hw]; rfl) ?_
  rintro s m u n hs - hpass - hr hu
  obtain ⟨v, rest, hvalue, hrest, rfl, hm⟩ := read_condition hcond hc hs hpass
  simp only [statementFrom, hw]
  refine (bind_of_ok hvalue).trans ((bind_of_ok (expect_of_rest hrest hc)).trans ?_)
  exact bind_of_ok (h _ u n hm hr hu.leaves)

theorem ReadBranch.readStatement {stmt : Stmt Unit} {word : Token} {ts : List Token} {inner : List Line}
    (hw : word.kind = .ifWord) (h : ReadBranch limit l stmt ts inner) :
    ReadStatement limit l stmt (word :: ts) inner := by
  refine readStatement_of_word (by rw [hw]; rfl) ?_
  rintro s m u n hs - hpass - hr hu
  simp only [statementFrom, hw]
  exact h s m u n (n + 1) hs (Nat.lt_succ_of_le hs.length) hpass hr hu

theorem ReadFunction.readStatement {r : Routine Unit} {word : Token} {ts : List Token}
    {inner : List Line} (hw : word.kind = .functionWord) (h : ReadFunction limit l r ts inner) :
    ReadStatement limit l (.define r) (word :: ts) inner := by
  refine readStatement_of_word (by rw [hw]; rfl) ?_
  rintro s m u n hs - hpass - hr hu
  simp only [statementFrom, hw]
  exact map_of_ok (h s m u n "function" hs hpass hr hu.leaves)

/-- The lines of a class body, behind its header. -/
theorem ReadMethods.readStatement {name word colon : Token} {parent : Option (Token × Unit)}
    {methods : List (Routine Unit)} {ts : List Token} {deeper : Layout} {first : Line}
    {rest : List Line} (hl : l.Nested) (hw : word.kind = .classWord) (hn : name.kind = .identifier)
    (hp : Superclass parent ts) (hc : colon.kind = .colon) (ho : l.Opens deeper)
    (hfirst : first.layout = deeper) (h : ReadMethods limit deeper methods (first :: rest)) :
    ReadStatement limit l (.classDef name parent methods) (word :: name :: (ts ++ [colon]))
      (first :: rest) := by
  refine readStatement_of_word (by rw [hw]; rfl) ?_
  rintro s m u n hs - hpass - hr hu
  have hbalanced : Balanced (name :: (ts ++ [colon])) :=
    (hp.balanced.append (.single (by rw [hc]; rfl))).cons (by rw [hn]; rfl)
  have hm := hs.passes hbalanced hpass
  obtain ⟨_, rest', hrest', hpass⟩ := hpass
  obtain ⟨v, hv, _, rest'', hrest'', rfl⟩ := Cursor.passes_append.1 hpass
  have hlayout := hr.leads.layout.trans hm.layout
  have hitems := h _ { u with layout := deeper } n (n + 1) (hm.relayout deeper)
    (Nat.le_succ_of_le hm.length) (hr.relayout Breaks.relayout deeper) (hu.leaves.stops hl ho)
  simp only [statementFrom, hw]
  refine (bind_of_ok (expect_of_rest hrest' hn)).trans ?_
  refine (bind_of_ok (hp.read hv hrest'' hc)).trans ?_
  refine (bind_of_ok (expect_of_rest hrest'' hc)).trans ?_
  exact bind_of_ok (indented_of_reads hm.layout ho (hfirst ▸ hr.1) hitems hlayout)

theorem ReadBlock.readFunction {name opening closing colon : Token} {params as bs : List Token}
    {type : Option Token} {body : List (Stmt Unit)} {inner : List Line} (hn : name.kind = .identifier)
    (ho : opening.kind = .leftParen) (hp : Params params as) (hcount : params.length ≤ limit)
    (hcl : closing.kind = .rightParen) (ht : ReturnType type bs) (hc : colon.kind = .colon)
    (h : ReadBlock limit l body inner) :
    ReadFunction limit l (.mk name params body type)
      (name :: opening :: (as ++ closing :: (bs ++ [colon]))) inner := by
  intro s m u n what hs hpass hr hu
  have hsplit : name :: opening :: (as ++ closing :: (bs ++ [colon])) =
      name :: ((opening :: (as ++ [closing])) ++ (bs ++ [colon])) := by simp
  rw [hsplit] at hpass
  have henclosed : Balanced (opening :: (as ++ [closing])) := hp.balanced.enclosed ho hcl
  have hbalanced := (henclosed.append (ht.balanced.append (.single (by rw [hc]; rfl)))).cons
    (t := name) (by rw [hn]; rfl)
  have hm := hs.passes hbalanced hpass
  obtain ⟨_, rest, hrest, hpass⟩ := hpass
  obtain ⟨v, hv, hpass⟩ := Cursor.passes_append.1 hpass
  obtain ⟨w, hw, _, rest', hrest', rfl⟩ := Cursor.passes_append.1 hpass
  have hlt := Cursor.length_consume_lt hrest
  have hlen := hs.length
  have hparams := hp.read_enclosed (s := s.consume name rest) (n := n) (w := what) ho hcount hcl
    hs.argumentLimit (by omega) hv
  refine (bind_of_ok (expect_of_rest hrest hn)).trans ?_
  refine (bind_of_ok hparams).trans ?_
  refine (bind_of_ok (ht.read hw hrest' hc)).trans ?_
  refine (bind_of_ok (expect_of_rest hrest' hc)).trans ?_
  exact bind_of_ok (h _ u n hm hr hu)

theorem ReadBlock.readBranch {condition : Expr Unit} {body : List (Stmt Unit)}
    {other : Option (Stmt Unit)} {ts : List Token} {colon : Token} {inner rest : List Line}
    (hcond : Spells limit tiers condition ts) (hc : colon.kind = .colon)
    (hproper : ∀ line ∈ inner, line.Proper) (h : ReadBlock limit l body inner)
    (hleaves : ∀ s u, s.Reads Breaks rest u → After l u → Leaves l s)
    (hother : ReadOtherwise limit l other rest) :
    ReadBranch limit l (.branch condition (.block body) other) (ts ++ [colon]) (inner ++ rest) := by
  intro s m u n k hs hk hpass hr hu
  obtain ⟨v, rest', hvalue, hrest, rfl, hm⟩ := read_condition hcond hc hs hpass
  obtain ⟨w, hinner, hr⟩ := Cursor.reads_append.1 hr
  have hlen := hpass.leads.length_le
  have hlen' := hinner.leads.length_le
  cases k with
  | zero => exact absurd hk (Nat.not_lt_zero _)
  | succ k =>
    refine (bind_of_ok hvalue).trans ((bind_of_ok (expect_of_rest hrest hc)).trans ?_)
    refine (bind_of_ok (h _ w n hm hinner (hleaves w u hr hu))).trans ?_
    exact bind_of_ok (hother w u n k (hm.reads hproper hinner) (by omega) hr hu)

/-- Where no alternative follows, none is read. -/
theorem readOtherwise_nothing : ReadOtherwise limit l none [] := by
  rintro s u n k hs - rfl hu
  have helse : acceptElse u = .ok false u := by
    unfold acceptElse
    simp only
    split
    · rfl
    · rename_i t rest hrest
      have hno : (t.kind == .elseWord && u.layout.continues (lineRun u.rest).1) = false := by
        rcases hu with (hend | hclose) | ⟨_, hword⟩
        · rw [hend] at hrest
          cases hrest
        · rw [hs.layout]
          cases hcontinues : l.continues (lineRun u.rest).1 with
          | false => rw [Bool.and_false]
          | true => rw [Layout.closes_of_continues hcontinues] at hclose; cases hclose
        · have hkind : t.kind ≠ .elseWord := hword t (by rw [hrest]; rfl)
          simp [hkind]
      rw [hno]
      rfl
  exact bind_of_ok helse

/-- An alternative on a line of the innermost block. -/
theorem acceptElse_of_line {word : Token} {ts : List Token} {inner : List Line} (hl : l.Nested)
    (hs : Stands limit l n s) (hw : word.kind = .elseWord)
    (hr : s.Reads Breaks (⟨l, word :: ts⟩ :: inner) u) :
    ∃ v m, acceptElse s = .ok true v ∧ Stands limit l (n - 1) v ∧ v.rest.length < s.rest.length ∧
      v.Passes ts m ∧ m.Reads Breaks inner u := by
  obtain ⟨hholds, m, ⟨_, rest, hrest, hpass⟩, _, hr⟩ := hr
  have hplain : isPlain word.kind = true := by rw [hw]; rfl
  have hcontinues : s.layout.continues (lineRun s.rest).1 = true := by
    rw [hs.layout]
    exact (Layout.continues_iff hl).2 hholds
  have hsnd : (lineRun s.rest).2 = word :: rest := hrest
  have haccept : acceptElse s = .ok true (s.begun.consume word rest) := by
    rw [consume_else hs.parens hw]
    unfold acceptElse
    simp only [hsnd, hw, hcontinues]
    rfl
  have hlt := Cursor.length_consume_lt hrest
  have hle := s.leads_begun.length_le
  exact ⟨_, m, haccept, hs.begun.consume hrest hplain, by omega, hpass, hr⟩

theorem ReadBlock.readOtherwise {body : List (Stmt Unit)} {word colon : Token} {inner : List Line}
    (hl : l.Nested) (hw : word.kind = .elseWord) (hc : colon.kind = .colon)
    (h : ReadBlock limit l body inner) :
    ReadOtherwise limit l (some (.block body)) (⟨l, [word, colon]⟩ :: inner) := by
  intro s u n k hs _ hr hu
  obtain ⟨v, m, helse, hv, -, ⟨_, rest, hrest, rfl⟩, hr⟩ := acceptElse_of_line hl hs hw hr
  have hm := (hv.consume hrest (by rw [hc]; rfl)).mono (k := n) (by omega)
  have halternative : alternative (n + 1) (declaration n) (branch (n + 1) (declaration n) k) v =
      .ok (.block body) u := by
    refine (bind_of_ok (accept?_of_halts (halts_of_rest hrest (by rw [hc]; rfl)))).trans ?_
    refine (bind_of_ok (expect_of_rest hrest hc)).trans ?_
    exact bind_of_ok (h _ u n hm hr hu.leaves)
  exact (bind_of_ok helse).trans (map_of_ok halternative)

theorem ReadBranch.readOtherwise {next : Stmt Unit} {word word' : Token} {ts : List Token}
    {inner : List Line} (hl : l.Nested) (hw : word.kind = .elseWord) (hw' : word'.kind = .ifWord)
    (h : ReadBranch limit l next ts inner) :
    ReadOtherwise limit l (some next) (⟨l, word :: word' :: ts⟩ :: inner) := by
  intro s u n k hs hk hr hu
  obtain ⟨v, m, helse, hv, hlen, ⟨_, rest, hrest, hpass⟩, hr⟩ := acceptElse_of_line hl hs hw hr
  have hm := (hv.consume hrest (by rw [hw']; rfl)).mono (k := n) (by omega)
  have hlt := Cursor.length_consume_lt hrest
  have halternative : alternative (n + 1) (declaration n) (branch (n + 1) (declaration n) k) v =
      .ok next u :=
    (bind_of_ok (accept?_of_rest hrest (by rw [hw']; rfl))).trans
      (h _ m u n k hm (by omega) hpass hr hu)
  exact (bind_of_ok helse).trans (map_of_ok halternative)

theorem Otherwise.leaves {other : Option (Stmt Unit)} {lines : List Line}
    (h : Otherwise limit l other lines) (hr : s.Reads Breaks lines u) (hu : After l u) : Leaves l s := by
  cases h with
  | nothing =>
    cases hr
    exact hu.leaves
  | block _ _ _ => exact Or.inr hr.1
  | branch _ _ _ => exact Or.inr hr.1

theorem ReadStatements.readBlock {deeper : Layout} {body : List (Stmt Unit)} {inner : List Line}
    (hl : l.Nested) (ho : l.Opens deeper) (hbody : Statements limit deeper body inner) (hne : body ≠ [])
    (h : ReadStatements limit deeper body inner) : ReadBlock limit l body inner := by
  intro s u n hs hr hu
  obtain ⟨t, ts, rest, rfl, -⟩ := hbody.first hne
  have hlayout := hr.leads.layout.trans hs.layout
  have hitems := h _ { u with layout := deeper } n (n + 1) (hs.relayout deeper)
    (Nat.le_succ_of_le hs.length) (hr.relayout Breaks.relayout deeper) (hu.stops hl ho)
  exact indented_of_reads hs.layout ho hr.1 hitems hlayout

theorem readStatements_nil : ReadStatements limit l [] [] := by
  rintro s u n k hs - rfl hu
  exact items_of_stops hs.layout hu

/-- In front of a line stands its first token, and the line is passed. -/
theorem first_of_reads {t : Token} {ts : List Token} {inner : List Line}
    (hr : s.Reads Breaks (⟨l, t :: ts⟩ :: inner) u) :
    (lineRun s.rest).2.head? = some t ∧ u.rest.length < s.rest.length := by
  obtain ⟨_, m, ⟨_, rest, hrest, hpass⟩, _, hr⟩ := hr
  have hbegun := s.leads_begun.length_le
  have hlt := Cursor.length_consume_lt hrest
  have hpassed := hpass.leads.length_le
  have hlines := hr.leads.length_le
  exact ⟨congrArg List.head? hrest, by omega⟩

theorem lineRun_ne_nil_of_reads {t : Token} {ts : List Token} {inner : List Line}
    (hr : s.Reads Breaks (⟨l, t :: ts⟩ :: inner) u) : (lineRun s.rest).2 ≠ [] := by
  intro hnil
  have hhead := (first_of_reads hr).1
  rw [hnil] at hhead
  cases hhead

/-- What follows a statement among others. -/
theorem Statements.after {ss : List (Stmt Unit)} {lines : List Line} (h : Statements limit l ss lines)
    (hr : s.Reads Breaks lines u) (hu : Stops l u) : After l s := by
  by_cases hne : ss = []
  · subst hne
    cases h
    cases hr
    exact Or.inl hu
  · obtain ⟨t, ts, inner, rfl, ht⟩ := h.first hne
    refine Or.inr ⟨hr.1, fun t' ht' helse => ?_⟩
    rw [(first_of_reads hr).1, Option.mem_some_iff] at ht'
    rw [ht', helse] at ht
    exact absurd ht (by decide)

theorem ReadStatement.readStatements {stmt : Stmt Unit} {ss : List (Stmt Unit)} {t : Token}
    {ts : List Token} {inner rest : List Line} (hl : l.Nested)
    (hproper : ∀ line ∈ (⟨l, t :: ts⟩ : Line) :: inner, line.Proper)
    (h : ReadStatement limit l stmt (t :: ts) inner) (hss : Statements limit l ss rest)
    (hrest : ReadStatements limit l ss rest) :
    ReadStatements limit l (stmt :: ss) ((⟨l, t :: ts⟩ :: inner) ++ rest) := by
  intro s u n k hs hk hr hu
  obtain ⟨m, hfirst, hr⟩ := Cursor.reads_append.1 hr
  have hlt := (first_of_reads hfirst).2
  have hlen := hs.length
  have hm := hs.reads hproper hfirst
  obtain ⟨n, rfl⟩ : ∃ n', n = n' + 1 := ⟨n - 1, by omega⟩
  obtain ⟨k, rfl⟩ : ∃ k', k = k' + 1 := ⟨k - 1, by omega⟩
  have hstmt := h.line hl hs hfirst (hss.after hr hu)
  refine items_of_line hl hs.layout hfirst.1 (lineRun_ne_nil_of_reads hfirst) (map_of_ok hstmt) ?_
  exact hrest m u (n + 1) k hm (by omega) hr hu

theorem readMethods_nil : ReadMethods limit l [] [] := by
  rintro s u n k hs - rfl hu
  exact items_of_stops hs.layout hu

/-- What follows a method among others. -/
theorem Methods.leaves {rs : List (Routine Unit)} {lines : List Line} (h : Methods limit l rs lines)
    (hr : s.Reads Breaks lines u) (hu : Stops l u) : Leaves l s := by
  cases h with
  | nil =>
    cases hr
    exact Or.inl hu
  | cons _ _ _ => exact Or.inr hr.1

theorem ReadFunction.readMethods {r : Routine Unit} {rs : List (Routine Unit)} {word : Token}
    {ts : List Token} {inner rest : List Line} (hl : l.Nested) (hw : word.kind = .functionWord)
    (hproper : ∀ line ∈ (⟨l, word :: ts⟩ : Line) :: inner, line.Proper)
    (h : ReadFunction limit l r ts inner) (hrs : Methods limit l rs rest)
    (hrest : ReadMethods limit l rs rest) :
    ReadMethods limit l (r :: rs) ((⟨l, word :: ts⟩ :: inner) ++ rest) := by
  intro s u n k hs hk hr hu
  obtain ⟨m, hfirst, hr⟩ := Cursor.reads_append.1 hr
  have hlt := (first_of_reads hfirst).2
  have hm := hs.reads hproper hfirst
  obtain ⟨k, rfl⟩ : ∃ k', k = k' + 1 := ⟨k - 1, by omega⟩
  have hmethod : method (n + 1) (declaration n) s = .ok (some r) m := by
    obtain ⟨hholds, v, ⟨_, rest', hrest', hpass⟩, _, hinner⟩ := hfirst
    have hv := (hs.begun.consume hrest' (by rw [hw]; rfl)).mono (k := n) (Nat.sub_le n 1)
    have hroutine := h _ v m n "method" hv hpass hinner (hrs.leaves hr hu)
    have hmethodLine : methodLine (n + 1) (declaration n) s = .ok r m :=
      (bind_of_ok (beginLine_of_holds hl hs.layout hholds)).trans
        ((bind_of_ok (expect_of_rest hrest' hw)).trans hroutine)
    unfold method recovering
    rw [map_of_ok hmethodLine]
  refine items_of_line hl hs.layout hfirst.1 (lineRun_ne_nil_of_reads hfirst) hmethod ?_
  exact hrest m u n k hm (by omega) hr hu

end Statements

mutual

theorem Statement.read {limit : Nat} {l : Layout} {stmt : Stmt Unit} {lines : List Line}
    (hl : l.Nested) : Statement limit l stmt lines →
      ∃ ts inner, lines = ⟨l, ts⟩ :: inner ∧ ReadStatement limit l stmt ts inner
  | .simple hset h => ⟨_, _, rfl, h.readStatement hset⟩
  | .print hw h => ⟨_, _, rfl, readStatement_print hw h⟩
  | .giveBack hw h => ⟨_, _, rfl, h.readStatement hw⟩
  | .block hc h => ⟨_, _, rfl, (h.read hl).readStatement hc⟩
  | .loop hw hcond hc h => ⟨_, _, rfl, (h.read hl).readStatement_loop hw hcond hc⟩
  | .branch hw h => ⟨_, _, rfl, (h.read hl).readStatement hw⟩
  | .define hw h => ⟨_, _, rfl, (h.read hl).readStatement hw⟩
  | .classDef hw hn hp hc ho h hne => by
    have hmethods := h.read (hl.opens ho)
    obtain ⟨t, ts, inner, rfl, -⟩ := h.first hne
    exact ⟨_, _, rfl, hmethods.readStatement hl hw hn hp hc ho rfl⟩

theorem Branch.read {limit : Nat} {l : Layout} {stmt : Stmt Unit} {ts : List Token} {inner : List Line}
    (hl : l.Nested) : Branch limit l stmt ts inner → ReadBranch limit l stmt ts inner
  | .intro hcond hc h hother =>
    (h.read hl).readBranch hcond hc h.proper (fun _ _ hr hu => hother.leaves hr hu) (hother.read hl)

theorem Otherwise.read {limit : Nat} {l : Layout} {other : Option (Stmt Unit)} {lines : List Line}
    (hl : l.Nested) : Otherwise limit l other lines → ReadOtherwise limit l other lines
  | .nothing => readOtherwise_nothing
  | .block hw hc h => (h.read hl).readOtherwise hl hw hc
  | .branch hw hw' h => (h.read hl).readOtherwise hl hw hw'

theorem Function.read {limit : Nat} {l : Layout} {r : Routine Unit} {ts : List Token}
    {inner : List Line} (hl : l.Nested) : Function limit l r ts inner → ReadFunction limit l r ts inner
  | .intro hn ho hp hcount hcl ht hc h => (h.read hl).readFunction hn ho hp hcount hcl ht hc

theorem Block.read {limit : Nat} {l : Layout} {body : List (Stmt Unit)} {lines : List Line}
    (hl : l.Nested) : Block limit l body lines → ReadBlock limit l body lines
  | .intro ho h hne => (h.read (hl.opens ho)).readBlock hl ho h hne

/-- The lines that spell statements are read as these statements. -/
theorem Statements.read {limit : Nat} {l : Layout} {ss : List (Stmt Unit)} {lines : List Line}
    (hl : l.Nested) : Statements limit l ss lines → ReadStatements limit l ss lines
  | .nil => readStatements_nil
  | .cons h hs => by
    obtain ⟨ts, inner, hlines, hread⟩ := h.read hl
    have hproper := h.proper
    obtain ⟨t, ts', inner', hfirst, -⟩ := h.first
    rw [hfirst] at hlines hproper ⊢
    cases hlines
    exact hread.readStatements hl hproper hs (hs.read hl)

theorem Methods.read {limit : Nat} {l : Layout} {rs : List (Routine Unit)} {lines : List Line}
    (hl : l.Nested) : Methods limit l rs lines → ReadMethods limit l rs lines
  | .nil => readMethods_nil
  | .cons hw h hs => by
    obtain ⟨hbalanced, hinner⟩ := h.proper
    have hproper := List.forall_mem_cons.2 ⟨Line.Proper.of_word (l := l) (by rw [hw]; rfl) hbalanced, hinner⟩
    exact (h.read hl).readMethods hl hw hproper hs (hs.read hl)

end

end Grammar
end Offside
