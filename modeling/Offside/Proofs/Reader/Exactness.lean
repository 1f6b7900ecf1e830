import Offside.Proofs.Reader.Completeness
import Offside.Proofs.Reader.Soundness
import Offside.Token.Lexer

/-!
# Exactly the expressions are read

Reading an expression yields a value exactly where the grammar has one that the next token cannot go on with, and
then it yields this one.  Too many arguments are no obstacle: they are reported and read all the same.  So what is
read does not depend on how many are allowed, and the theory of reading without a report applies to every reading
once enough of them are.

* `Steady` — steps that do the same whatever number of arguments is allowed;
* `Charges` — how many reports about arguments a step makes;
* `expression_halts` — what is read ends where nothing goes on with it;
* `Grammar.Occurs`, `expression_exact` — the expressions at a place of a text, and that they are what is read.
-/

set_option autoImplicit false

namespace Offside

open Token (Kind)

/-! ## Arguments beyond the limit -/

mutual

/-- The arguments that the calls in an expression have beyond the number allowed. -/
def Expr.excess (limit : Nat) : Expr Unit → Nat
  | .group inner => inner.excess limit
  | .unary _ operand => operand.excess limit
  | .binary left _ right => left.excess limit + right.excess limit
  | .logical left _ right => left.excess limit + right.excess limit
  | .setField object _ value => object.excess limit + value.excess limit
  | .getField object _ => object.excess limit
  | .call callee _ arguments =>
    callee.excess limit + (Expr.excessAll limit arguments + (arguments.length - limit))
  | .literal _ | .name _ _ | .thisRef _ _ | .superRef _ _ _ | .unknown => 0

/-- The same for several expressions together. -/
def Expr.excessAll (limit : Nat) : List (Expr Unit) → Nat
  | [] => 0
  | e :: es => e.excess limit + Expr.excessAll limit es

end

theorem Expr.excessAll_append (limit : Nat) (es : List (Expr Unit)) (e : Expr Unit) :
    Expr.excessAll limit (es ++ [e]) = Expr.excessAll limit es + e.excess limit := by
  induction es with
  | nil => simp [Expr.excessAll]
  | cons first es ih => simp only [List.cons_append, Expr.excessAll, ih, Nat.add_assoc]

mutual

/-- Nothing is in excess of a limit that is high enough. -/
theorem Expr.excess_eq_zero {limit : Nat} : ∀ e : Expr Unit, e.excess 0 ≤ limit → e.excess limit = 0
  | .group inner, h => Expr.excess_eq_zero inner h
  | .unary _ operand, h => Expr.excess_eq_zero operand h
  | .binary left _ right, h | .logical left _ right, h | .setField left _ right, h => by
    rw [Expr.excess] at h ⊢
    rw [Expr.excess_eq_zero left (by omega), Expr.excess_eq_zero right (by omega)]
  | .getField object _, h => Expr.excess_eq_zero object h
  | .call callee _ arguments, h => by
    rw [Expr.excess] at h ⊢
    rw [Expr.excess_eq_zero callee (by omega), Expr.excessAll_eq_zero arguments (by omega)]
    omega
  | .literal _, _ | .name _ _, _ | .thisRef _ _, _ | .superRef _ _ _, _ | .unknown, _ => rfl

theorem Expr.excessAll_eq_zero {limit : Nat} : ∀ es : List (Expr Unit), Expr.excessAll 0 es ≤ limit →
    Expr.excessAll limit es = 0
  | [], _ => rfl
  | e :: es, h => by
    rw [Expr.excessAll] at h ⊢
    rw [Expr.excess_eq_zero e (by omega), Expr.excessAll_eq_zero es (by omega)]

end

namespace Reading

open Step Grammar

variable {α β : Type}

/-! ## Under any limit -/

/-- The cursors differ in the number of arguments allowed and in the reports at most. -/
structure Alike (s t : Cursor) : Prop where
  rest : s.rest = t.rest
  endLine : s.endLine = t.endLine
  lastLine : s.lastLine = t.lastLine
  parens : s.parens = t.parens
  layout : s.layout = t.layout

theorem Alike.complain {s t : Cursor} (h : Alike s t) (a b : Token) (problem problem' : Problem) :
    Alike (s.complain a problem) (t.complain b problem') :=
  ⟨h.rest, h.endLine, h.lastLine, h.parens, h.layout⟩

theorem Alike.consume {s t : Cursor} (h : Alike s t) (x : Token) (rest : List Token) :
    Alike (s.consume x rest) (t.consume x rest) := by
  constructor
  · simp only [Cursor.consume, h.parens]
  · exact h.endLine
  · rfl
  · simp only [Cursor.consume, h.parens]
  · exact h.layout

/-- The step does the same from cursors that are alike. -/
def Steady (p : Reading α) : Prop :=
  ∀ s t, Alike s t → Pairs (fun a u b v => a = b ∧ Alike u v) Alike (p s) (p t)

theorem steady_pure (a : α) : Steady (pure a : Reading α) :=
  fun _ _ h => ⟨rfl, h⟩

theorem Steady.bind {p : Reading α} {f : α → Reading β} (hp : Steady p) (hf : ∀ a, Steady (f a)) :
    Steady (p >>= f) := by
  intro s t h
  apply Pairs.bind (hp s t h)
  rintro a u b v ⟨rfl, huv⟩
  exact hf a u v huv

theorem Steady.map {p : Reading α} (g : α → β) (hp : Steady p) : Steady (g <$> p) :=
  hp.bind fun a => steady_pure (g a)

theorem steady_abandon (problem : Problem) : Steady (abandon problem : Reading α) :=
  fun s t h => ⟨rfl, h.complain s.current t.current problem problem⟩

theorem steady_check (p : Kind → Bool) : Steady (check p) := by
  intro s t h
  unfold check
  rw [h.rest]
  exact ⟨rfl, h⟩

theorem steady_accept? (p : Kind → Bool) : Steady (accept? p) := by
  intro s t h
  unfold accept?
  rw [h.rest]
  split
  · exact ⟨rfl, h⟩
  · split
    · exact ⟨rfl, h.consume _ _⟩
    · exact ⟨rfl, h⟩

theorem steady_limitCount (count : Nat) (what : String) : Steady (limitCount count what) := by
  intro s t h
  unfold limitCount
  split <;> split
  · exact ⟨rfl, h.complain _ _ _ _⟩
  · exact ⟨rfl, h.rest, h.endLine, h.lastLine, h.parens, h.layout⟩
  · exact ⟨rfl, h.rest, h.endLine, h.lastLine, h.parens, h.layout⟩
  · exact ⟨rfl, h⟩

/-- A step that begins by accepting a token or not. -/
theorem steady_accept?_bind {p : Kind → Bool} {f : Option Token → Reading β} (hn : Steady (f none))
    (hs : ∀ t, Steady (f (some t))) : Steady (accept? p >>= f) := by
  apply (steady_accept? p).bind
  intro r
  cases r with
  | none => exact hn
  | some t => exact hs t

theorem steady_expect (kind : Kind) (what : String) : Steady (expect kind what) :=
  steady_accept?_bind (steady_abandon _) fun t => steady_pure t

section

variable {e operand : Reading (Expr Unit)}

theorem Steady.joinFrom (tier : Tier) (h : Steady operand) (fuel : Nat) (left : Expr Unit) :
    Steady (joinFrom tier operand fuel left) := by
  induction fuel generalizing left with
  | zero => exact steady_pure left
  | succ fuel ih => exact steady_accept?_bind (steady_pure left) fun operator => h.bind fun right => ih _

theorem Steady.signed (h : Steady operand) (fuel : Nat) : Steady (signed operand fuel) := by
  induction fuel with
  | zero => exact h
  | succ fuel ih => exact steady_accept?_bind h fun operator => ih.map _

theorem Steady.argumentsFrom (h : Steady e) (fuel : Nat) (read : List (Expr Unit)) :
    Steady (argumentsFrom e fuel read) := by
  induction fuel generalizing read with
  | zero => exact steady_abandon _
  | succ fuel ih =>
    apply (steady_limitCount read.length "arguments").bind
    intro _
    apply h.bind
    intro argument
    exact steady_accept?_bind (steady_pure _) fun comma => ih _

theorem Steady.finishCall (h : Steady e) (fuel : Nat) (callee : Expr Unit) :
    Steady (finishCall e fuel callee) := by
  have harguments : Steady (argumentList e fuel) := by
    apply (steady_check _).bind
    intro closed
    cases closed with
    | true => exact steady_pure []
    | false => exact h.argumentsFrom fuel []
  exact harguments.bind fun arguments => (steady_expect _ _).bind fun paren => steady_pure _

theorem Steady.suffixesFrom (h : Steady e) (bound fuel : Nat) (left : Expr Unit) :
    Steady (suffixesFrom e bound fuel left) := by
  induction fuel generalizing left with
  | zero => exact steady_pure left
  | succ fuel ih =>
    apply steady_accept?_bind
    · apply steady_accept?_bind (steady_pure left)
      intro dot
      exact (steady_expect _ _).bind fun field => ih _
    · intro opening
      exact (h.finishCall bound left).bind fun call => ih call

theorem Steady.primaryFrom (h : Steady e) (t : Token) : Steady (primaryFrom e t) := by
  unfold Reading.primaryFrom
  split
  · exact (steady_expect _ _).bind fun dot => (steady_expect _ _).bind fun method => steady_pure _
  · exact steady_pure _
  · exact steady_pure _
  · exact h.bind fun inner => (steady_expect _ _).bind fun closing => steady_pure _
  · exact steady_pure _

theorem Steady.levels (h : Steady e) (fuel : Nat) (T : List Tier) : Steady (levels fuel e T) := by
  induction T with
  | nil =>
    have hprimary : Steady (primary e) :=
      steady_accept?_bind (steady_abandon _) fun t => h.primaryFrom t
    exact (hprimary.bind fun first => h.suffixesFrom fuel fuel first).signed fuel
  | cons tier more ih => exact ih.bind fun first => ih.joinFrom tier fuel first

end

/-- An expression is read in the same way whatever number of arguments is allowed. -/
theorem steady_expression (fuel : Nat) : Steady (expression fuel) := by
  induction fuel with
  | zero => exact steady_abandon _
  | succ fuel ih => exact ih.levels (fuel + 1) tiers

theorem Steady.ok {p : Reading α} (hp : Steady p) {s t u : Cursor} {a : α} (h : Alike s t) (hs : p s = .ok a u) :
    ∃ v, p t = .ok a v ∧ Alike u v := by
  have hpair := hp s t h
  rw [hs] at hpair
  cases ht : p t with
  | ok b v =>
    rw [ht] at hpair
    obtain ⟨rfl, huv⟩ := hpair
    exact ⟨v, rfl, huv⟩
  | error e v =>
    rw [ht] at hpair
    exact hpair.elim

/-! ## Reports about arguments -/

/-- Where the step yields a value, it has reported too many arguments and nothing else: as often as to raise the
count from `c` to the cost of the value. -/
def Charges (limit c : Nat) (cost : α → Nat) (p : Reading α) : Prop :=
  ∀ s a u, s.argumentLimit = limit → p s = .ok a u → u.argumentLimit = limit ∧
    ∃ rs, u.reports = s.reports ++ rs ∧ (∀ r ∈ rs, r.problem = .tooMany limit "arguments") ∧
      c + rs.length = cost a

section

variable {limit c : Nat} {cost : α → Nat} {cost' : β → Nat}

theorem charges_pure {a : α} (h : c = cost a) : Charges limit c cost (pure a) := by
  rintro s b u hs ⟨⟩
  exact ⟨hs, [], (List.append_nil _).symm, List.forall_mem_nil _, h⟩

theorem Charges.bind {p : Reading α} {f : α → Reading β} (hp : Charges limit c cost p)
    (hf : ∀ a, Charges limit (cost a) cost' (f a)) : Charges limit c cost' (p >>= f) := by
  intro s b u hs h
  obtain ⟨a, t, h₁, h₂⟩ := ok_of_bind h
  obtain ⟨ht, rs, hrs, hall, hcount⟩ := hp s a t hs h₁
  obtain ⟨hu, rs', hrs', hall', hcount'⟩ := hf a t b u ht h₂
  refine ⟨hu, rs ++ rs', by rw [hrs', hrs, List.append_assoc], ?_, by rw [List.length_append]; omega⟩
  intro r hr
  rcases List.mem_append.1 hr with hr | hr
  · exact hall r hr
  · exact hall' r hr

/-- The count may start higher. -/
theorem Charges.behind {p : Reading α} (h : Charges limit 0 cost p) (c : Nat) :
    Charges limit c (fun a => c + cost a) p := by
  intro s a u hs hp
  obtain ⟨hu, rs, hrs, hall, hcount⟩ := h s a u hs hp
  rw [Nat.zero_add] at hcount
  exact ⟨hu, rs, hrs, hall, by rw [hcount]⟩

theorem charges_abandon (problem : Problem) : Charges limit c cost (abandon problem) :=
  fun _ _ _ _ h => nomatch h

theorem charges_check (limit c : Nat) (p : Kind → Bool) : Charges limit c (fun _ => c) (check p) := by
  rintro s a u hs ⟨⟩
  exact ⟨hs, [], (List.append_nil _).symm, List.forall_mem_nil _, rfl⟩

/-- A step that begins by accepting a token or not. -/
theorem charges_accept?_bind {p : Kind → Bool} {f : Option Token → Reading β} (hn : Charges limit c cost' (f none))
    (hs : ∀ t, Charges limit c cost' (f (some t))) : Charges limit c cost' (accept? p >>= f) := by
  intro s b u hlimit h
  obtain ⟨r, t, h₁, h₂⟩ := ok_of_bind h
  cases r with
  | none =>
    rw [eq_of_accept?_none h₁] at h₂
    exact hn s b u hlimit h₂
  | some x =>
    obtain ⟨ts, -, -, rfl⟩ := rest_of_accept?_some h₁
    exact hs x (s.consume x ts) b u hlimit h₂

theorem charges_expect (limit c : Nat) (kind : Kind) (what : String) :
    Charges limit c (fun _ => c) (expect kind what) :=
  charges_accept?_bind (charges_abandon _) fun _ => charges_pure rfl

theorem charges_limitCount (limit c count : Nat) :
    Charges limit (c + (count - limit)) (fun _ => c + (count + 1 - limit)) (limitCount count "arguments") := by
  rintro s ⟨⟩ u rfl h
  unfold limitCount at h
  split at h
  · next hle =>
    cases h
    refine ⟨rfl, [_], rfl, ?_, ?_⟩
    · intro r hr
      rw [List.mem_singleton.1 hr]
      rfl
    · show c + (count - s.argumentLimit) + 1 = c + (count + 1 - s.argumentLimit)
      omega
  · next hlt =>
    cases h
    refine ⟨rfl, [], (List.append_nil _).symm, List.forall_mem_nil _, ?_⟩
    show c + (count - s.argumentLimit) + 0 = c + (count + 1 - s.argumentLimit)
    omega

end

section

variable {limit : Nat} {e operand : Reading (Expr Unit)}

theorem Charges.joinFrom (tier : Tier) (h : Charges limit 0 (Expr.excess limit) operand) (fuel : Nat)
    (left : Expr Unit) : Charges limit (left.excess limit) (Expr.excess limit) (joinFrom tier operand fuel left) := by
  induction fuel generalizing left with
  | zero => exact charges_pure rfl
  | succ fuel ih =>
    refine charges_accept?_bind (charges_pure rfl) fun operator => ?_
    apply (h.behind (left.excess limit)).bind
    intro right
    have hjoin : (tier.join left operator right).excess limit = left.excess limit + right.excess limit := by
      cases tier <;> rfl
    rw [← hjoin]
    exact ih _

theorem Charges.signed (h : Charges limit 0 (Expr.excess limit) operand) (fuel : Nat) :
    Charges limit 0 (Expr.excess limit) (signed operand fuel) := by
  induction fuel with
  | zero => exact h
  | succ fuel ih =>
    apply charges_accept?_bind h
    intro operator
    exact ih.bind fun inner => charges_pure rfl

theorem Charges.argumentsFrom (h : Charges limit 0 (Expr.excess limit) e) (fuel : Nat)
    (read : List (Expr Unit)) :
    Charges limit (Expr.excessAll limit read + (read.length - limit))
      (fun es => Expr.excessAll limit es + (es.length - limit)) (argumentsFrom e fuel read) := by
  induction fuel generalizing read with
  | zero => exact charges_abandon _
  | succ fuel ih =>
    apply (charges_limitCount limit _ read.length).bind
    intro _
    apply (h.behind _).bind
    intro argument
    have hmore : Expr.excessAll limit read + (read.length + 1 - limit) + argument.excess limit =
        Expr.excessAll limit (read ++ [argument]) + ((read ++ [argument]).length - limit) := by
      rw [Expr.excessAll_append, List.length_append, List.length_singleton]
      omega
    rw [hmore]
    exact charges_accept?_bind (charges_pure rfl) fun comma => ih _

theorem Charges.finishCall (h : Charges limit 0 (Expr.excess limit) e) (fuel : Nat) (callee : Expr Unit) :
    Charges limit (callee.excess limit) (Expr.excess limit) (finishCall e fuel callee) := by
  have harguments : Charges limit 0 (fun es => Expr.excessAll limit es + (es.length - limit))
      (argumentList e fuel) := by
    apply (charges_check limit 0 _).bind
    intro closed
    cases closed with
    | true => exact charges_pure (by simp [Expr.excessAll])
    | false => simpa [Expr.excessAll] using h.argumentsFrom fuel []
  apply (harguments.behind _).bind
  intro arguments
  apply (charges_expect limit _ _ _).bind
  intro paren
  exact charges_pure rfl

theorem Charges.suffixesFrom (h : Charges limit 0 (Expr.excess limit) e) (bound fuel : Nat) (left : Expr Unit) :
    Charges limit (left.excess limit) (Expr.excess limit) (suffixesFrom e bound fuel left) := by
  induction fuel generalizing left with
  | zero => exact charges_pure rfl
  | succ fuel ih =>
    apply charges_accept?_bind
    · refine charges_accept?_bind (charges_pure rfl) fun dot => ?_
      exact (charges_expect limit _ _ _).bind fun field => ih (.getField left field)
    · intro opening
      exact (h.finishCall bound left).bind fun call => ih call

theorem Charges.primaryFrom (h : Charges limit 0 (Expr.excess limit) e) (t : Token) :
    Charges limit 0 (Expr.excess limit) (primaryFrom e t) := by
  unfold Reading.primaryFrom
  split
  · apply (charges_expect limit 0 _ _).bind
    intro dot
    apply (charges_expect limit 0 _ _).bind
    intro method
    exact charges_pure rfl
  · exact charges_pure rfl
  · exact charges_pure rfl
  · apply h.bind
    intro inner
    exact (charges_expect limit _ _ _).bind fun closing => charges_pure rfl
  · exact charges_pure rfl

theorem Charges.levels (h : Charges limit 0 (Expr.excess limit) e) (fuel : Nat) (T : List Tier) :
    Charges limit 0 (Expr.excess limit) (levels fuel e T) := by
  induction T with
  | nil =>
    have hprimary : Charges limit 0 (Expr.excess limit) (primary e) :=
      charges_accept?_bind (charges_abandon _) fun t => h.primaryFrom t
    exact Charges.signed (hprimary.bind fun first => h.suffixesFrom fuel fuel first) fuel
  | cons tier more ih => exact ih.bind fun first => ih.joinFrom tier fuel first

end

/-- Reading an expression makes one report for each argument beyond the limit. -/
theorem charges_expression (limit fuel : Nat) : Charges limit 0 (Expr.excess limit) (expression fuel) := by
  induction fuel with
  | zero => exact charges_abandon _
  | succ fuel ih => exact ih.levels (fuel + 1) tiers

/-! ## Where reading ends -/

theorem halts_of_nil {s : Cursor} {p : Kind → Bool} (h : s.rest.length ≤ 0) : s.Halts p := by
  intro t ht
  rw [List.length_eq_zero_iff.1 (Nat.le_zero.1 h)] at ht
  cases ht

theorem halts_of_accept?_none {s u : Cursor} {p : Kind → Bool} (h : accept? p s = .ok none u) :
    u.Halts p := by
  rw [eq_of_accept?_none h]
  unfold accept? at h
  split at h
  · next hnil =>
    intro t ht
    rw [hnil] at ht
    cases ht
  · next x rest hrest =>
    split at h
    · cases h
    · next hx => exact halts_of_rest hrest (Bool.eq_false_iff.2 hx)

/-- With at most `k` tokens left, the step ends in front of a token that does not go on with an expression of the
tiers. -/
def Exhausts (T : List Tier) (k : Nat) (p : Reading α) : Prop :=
  ∀ s a u, s.rest.length ≤ k → p s = .ok a u → u.Halts (extends? T)

section

variable {e operand : Reading (Expr Unit)} {fuel : Nat}

/-- The loop of a tier goes on until there is no operator of the tier. -/
theorem halts_joinFrom {tier : Tier} {more : List Tier} (hm : Moves operand)
    (hop : Exhausts more fuel operand) {s u : Cursor} {left x : Expr Unit} (hlength : s.rest.length ≤ fuel)
    (hs : s.Halts (extends? more)) (h : joinFrom tier operand fuel left s = .ok x u) :
    u.Halts (extends? (tier :: more)) := by
  induction fuel generalizing s left with
  | zero =>
    cases h
    exact halts_of_nil hlength
  | succ fuel ih =>
    obtain ⟨r, m, haccept, h⟩ := ok_of_bind h
    cases r with
    | none =>
      cases h
      have hnone := halts_of_accept?_none haccept
      rw [eq_of_accept?_none haccept] at hnone ⊢
      intro t ht
      exact (extends?_cons tier more t.kind).2 ⟨hnone t ht, hs t ht⟩
    | some operator =>
      have hlt := length_lt_of_accept?_some haccept
      obtain ⟨right, m', hright, h⟩ := ok_of_bind h
      have hle := (hm.ok hright).length_le
      have hop' : Exhausts more fuel operand := fun s a u hs => hop s a u (by omega)
      exact ih hop' (by omega) (hop m right m' (by omega) hright) h

/-- The loop over calls and fields goes on until there is neither. -/
theorem halts_suffixesFrom {bound : Nat} (hm : Moves e) {s u : Cursor} {left x : Expr Unit}
    (hlength : s.rest.length ≤ fuel) (h : suffixesFrom e bound fuel left s = .ok x u) :
    u.Halts (extends? []) := by
  induction fuel generalizing s left with
  | zero =>
    cases h
    exact halts_of_nil hlength
  | succ fuel ih =>
    obtain ⟨r, m, haccept, h⟩ := ok_of_bind h
    cases r with
    | some opening =>
      have hlt := length_lt_of_accept?_some haccept
      obtain ⟨call, m', hcall, h⟩ := ok_of_bind h
      have hle := ((hm.finishCall bound left).ok hcall).length_le
      exact ih (by omega) h
    | none =>
      have hparen := halts_of_accept?_none haccept
      rw [eq_of_accept?_none haccept] at h hparen
      obtain ⟨r, m, haccept, h⟩ := ok_of_bind h
      cases r with
      | some dot =>
        have hlt := length_lt_of_accept?_some haccept
        obtain ⟨field, m', hfield, h⟩ := ok_of_bind h
        have hle := ((moves_expect _ _).ok hfield).length_le
        exact ih (by omega) h
      | none =>
        have hdot := halts_of_accept?_none haccept
        cases h
        rw [eq_of_accept?_none haccept] at hdot ⊢
        intro t ht
        have hboth : (t.kind == .leftParen || t.kind == .dot) = false :=
          Bool.or_eq_false_iff.2 ⟨hparen t ht, hdot t ht⟩
        simp only [extends?, hboth, List.any_nil, Bool.or_false]

theorem Exhausts.signed (hop : Exhausts [] fuel operand) (n : Nat) :
    Exhausts [] fuel (signed operand n) := by
  induction n with
  | zero => exact hop
  | succ n ih =>
    intro s x u hlength h
    obtain ⟨r, m, haccept, h⟩ := ok_of_bind h
    cases r with
    | none =>
      rw [eq_of_accept?_none haccept] at h
      exact hop s x u hlength h
    | some operator =>
      have hlt := length_lt_of_accept?_some haccept
      obtain ⟨inner, hinner, -⟩ := ok_of_map h
      exact ih m inner u (by omega) hinner

theorem exhausts_levels (hm : Moves e) (T : List Tier) : Exhausts T fuel (levels fuel e T) := by
  induction T with
  | nil =>
    refine Exhausts.signed ?_ fuel
    intro s x u hlength h
    obtain ⟨first, m, hfirst, h⟩ := ok_of_bind h
    have hle := (hm.primary.ok hfirst).length_le
    exact halts_suffixesFrom hm (by omega) h
  | cons tier more ih =>
    intro s x u hlength h
    obtain ⟨first, m, hfirst, h⟩ := ok_of_bind h
    have hle := ((hm.levels fuel more).ok hfirst).length_le
    exact halts_joinFrom (hm.levels fuel more) ih (by omega) (ih s first m hlength hfirst) h

end

/-- What is read as an expression ends in front of a token that does not go on with it. -/
theorem exhausts_expression (fuel : Nat) : Exhausts tiers fuel (expression fuel) := by
  cases fuel with
  | zero =>
    intro s x u _ h
    cases h
  | succ fuel => exact exhausts_levels (moves_expression fuel) tiers

end Reading

/-! ## Texts without indentation -/

namespace Cursor

variable {s u : Cursor}

theorem rest_consume (hreal : ∀ t ∈ s.rest, t.isIndentation = false) {t : Token} {rest : List Token}
    (h : s.rest = t :: rest) : (s.consume t rest).rest = rest := by
  unfold consume
  simp only
  split
  · rfl
  · cases rest with
    | nil => rfl
    | cons x xs =>
      have hx := hreal x (by rw [h]; exact List.mem_cons_of_mem t List.mem_cons_self)
      rw [List.dropWhile_cons_of_neg (by rw [hx]; nofun)]

theorem real_consume (hreal : ∀ t ∈ s.rest, t.isIndentation = false) {t : Token} {rest : List Token}
    (h : s.rest = t :: rest) : ∀ x ∈ (s.consume t rest).rest, x.isIndentation = false := by
  intro x hx
  rw [rest_consume hreal h] at hx
  exact hreal x (by rw [h]; exact List.mem_cons_of_mem t hx)

/-- Without indentation, tokens that are passed are the ones in front. -/
theorem rest_of_passes {ts : List Token} (hreal : ∀ t ∈ s.rest, t.isIndentation = false) (h : s.Passes ts u) :
    s.rest = ts ++ u.rest := by
  induction ts generalizing s with
  | nil =>
    cases h
    rfl
  | cons t ts ih =>
    obtain ⟨_, rest, hs, h⟩ := h
    rw [hs, List.cons_append, ← ih (real_consume hreal hs) h, rest_consume hreal hs]

theorem exists_passes {ts after : List Token} (hreal : ∀ t ∈ s.rest, t.isIndentation = false)
    (h : s.rest = ts ++ after) : ∃ u, s.Passes ts u ∧ u.rest = after := by
  induction ts generalizing s with
  | nil => exact ⟨s, rfl, h⟩
  | cons t ts ih =>
    rw [List.cons_append] at h
    obtain ⟨u, hpass, hu⟩ := ih (real_consume hreal h) (rest_consume hreal h)
    exact ⟨u, ⟨hreal t (by rw [h]; exact List.mem_cons_self), _, h, hpass⟩, hu⟩

end Cursor

/-! ## Exactness -/

namespace Grammar

open Reading

/-- The tokens spell an expression, in which calls may have any number of arguments. -/
def Phrase (e : Expr Unit) (ts : List Token) : Prop :=
  ∃ limit, Spells limit tiers e ts

/-- The tokens from `p` to `q` spell the expression, and the token at `q`, if there is one, does not go on
with it. -/
structure Occurs (tokens : List Token) (p q : Nat) (e : Expr Unit) : Prop where
  le : p ≤ q
  le_length : q ≤ tokens.length
  phrase : Phrase e ((tokens.take q).drop p)
  ends : ∀ t ∈ tokens[q]?, extends? tiers t.kind = false

end Grammar

namespace Reading

open Step Grammar

variable {tokens : List Token} {p fuel : Nat} {s : Cursor}

/-- The cursor with another number of arguments allowed. -/
def under (s : Cursor) (limit : Nat) : Cursor :=
  { s with argumentLimit := limit }

theorem alike_under (s : Cursor) (limit : Nat) : Alike s (under s limit) :=
  ⟨rfl, rfl, rfl, rfl, rfl⟩

/-- What is read is spelled by the tokens that are consumed. -/
theorem phrase_of_expression (hreal : ∀ t ∈ s.rest, t.isIndentation = false) {e : Expr Unit} {u : Cursor}
    (h : expression fuel s = .ok e u) : ∃ ts, Phrase e ts ∧ s.rest = ts ++ u.rest := by
  -- with as many arguments allowed as the whole expression has, nothing is reported
  let limit := e.excess 0
  obtain ⟨v, hv, halike⟩ := (steady_expression fuel).ok (alike_under s limit) h
  obtain ⟨-, rs, hrs, -, hcount⟩ := charges_expression limit fuel (under s limit) e v rfl hv
  have hnone : rs = [] := by
    apply List.eq_nil_of_length_eq_zero
    rw [e.excess_eq_zero (Nat.le_refl limit)] at hcount
    omega
  rw [hnone, List.append_nil] at hrs
  obtain ⟨ts, hts, hpass⟩ := spelled_expression limit fuel (under s limit) e v rfl ⟨hv, hrs⟩
  refine ⟨ts, ⟨limit, hts⟩, ?_⟩
  rw [halike.rest]
  exact Cursor.rest_of_passes (s := under s limit) hreal hpass

/-- Tokens that spell an expression are read as this expression where the next token does not go on with it. -/
theorem expression_of_phrase (hreal : ∀ t ∈ s.rest, t.isIndentation = false) (hfuel : s.rest.length ≤ fuel)
    {e : Expr Unit} {ts after : List Token} (hts : Phrase e ts) (hrest : s.rest = ts ++ after)
    (hafter : ∀ t ∈ after.head?, extends? tiers t.kind = false) :
    ∃ u, expression fuel s = .ok e u ∧ u.rest = after := by
  obtain ⟨limit, hts⟩ := hts
  obtain ⟨v, hpass, hv⟩ := Cursor.exists_passes (s := under s limit) hreal hrest
  have hhalts : v.Halts (extends? tiers) := by
    intro t ht
    rw [hv] at ht
    exact hafter t ht
  have hread := hts.whole (under s limit) v fuel rfl hfuel hpass hhalts
  have hback : Alike (under s limit) s := ⟨rfl, rfl, rfl, rfl, rfl⟩
  obtain ⟨u, hu, halike⟩ := (steady_expression fuel).ok hback hread
  exact ⟨u, hu, halike.rest.symm.trans hv⟩

theorem drop_eq_append {q : Nat} (hp : p ≤ q) (hq : q ≤ tokens.length) :
    tokens.drop p = (tokens.take q).drop p ++ tokens.drop q := by
  have hlength : p ≤ (tokens.take q).length := by
    rw [List.length_take]
    omega
  rw [← List.drop_append_of_le_length hlength, List.take_append_drop]

theorem occurs_of_expression (hreal : ∀ t ∈ s.rest, t.isIndentation = false) (hs : s.rest = tokens.drop p)
    (hfuel : s.rest.length ≤ fuel) {e : Expr Unit} {u : Cursor} {q : Nat} (h : expression fuel s = .ok e u)
    (hq : q ≤ tokens.length) (hu : u.rest = tokens.drop q) : Occurs tokens p q e := by
  obtain ⟨ts, hts, hrest⟩ := phrase_of_expression hreal h
  have hpositive : 0 < ts.length := by
    obtain ⟨limit, hspells⟩ := hts
    obtain ⟨t, us, rfl, -⟩ := hspells.head
    exact Nat.succ_pos _
  rw [hs, hu] at hrest
  have hle : p ≤ q := by
    have hlength := congrArg List.length hrest
    simp only [List.length_append, List.length_drop] at hlength
    omega
  rw [drop_eq_append hle hq] at hrest
  have hhalts := exhausts_expression fuel s e u hfuel h
  refine ⟨hle, hq, ?_, ?_⟩
  · rw [List.append_cancel_right hrest]
    exact hts
  · intro t ht
    rw [← List.head?_drop, ← hu] at ht
    exact hhalts t ht

theorem expression_of_occurs (hreal : ∀ t ∈ s.rest, t.isIndentation = false) (hs : s.rest = tokens.drop p)
    (hfuel : s.rest.length ≤ fuel) {e : Expr Unit} {q : Nat} (h : Occurs tokens p q e) :
    ∃ u, expression fuel s = .ok e u ∧ u.rest = tokens.drop q := by
  apply expression_of_phrase hreal hfuel h.phrase (hs.trans (drop_eq_append h.le h.le_length))
  intro t ht
  rw [List.head?_drop] at ht
  exact h.ends t ht

/-- **Exactly the expressions.**  Take tokens without indentation and a cursor at the token `p`, in whatever state
it is and however many arguments are allowed.  Reading an expression yields `e` and stops at the token `q` if and
only if the tokens from `p` to `q` spell `e` and the token at `q` does not go on with it.  There is at most one such
expression.  The only reports on the way are that there are too many arguments, one for each argument of a call
in `e` beyond the number allowed. -/
theorem expression_exact (hreal : ∀ t ∈ tokens, t.isIndentation = false) (hs : s.rest = tokens.drop p)
    (hfuel : s.rest.length ≤ fuel) :
    (∀ e q, (∃ u, expression fuel s = .ok e u ∧ q ≤ tokens.length ∧ u.rest = tokens.drop q) ↔
      Occurs tokens p q e) ∧
    (∀ e u, expression fuel s = .ok e u → (∃ q ≤ tokens.length, u.rest = tokens.drop q) ∧
      ∃ rs, u.reports = s.reports ++ rs ∧ (∀ r ∈ rs, r.problem = .tooMany s.argumentLimit "arguments") ∧
        rs.length = e.excess s.argumentLimit) ∧
    (∀ e q e' q', Occurs tokens p q e → Occurs tokens p q' e' → e = e' ∧ q = q') := by
  have hrest : ∀ t ∈ s.rest, t.isIndentation = false := by
    intro t ht
    rw [hs] at ht
    exact hreal t (List.mem_of_mem_drop ht)
  refine ⟨?_, ?_, ?_⟩
  · intro e q
    constructor
    · rintro ⟨u, h, hq, hu⟩
      exact occurs_of_expression hrest hs hfuel h hq hu
    · intro h
      obtain ⟨u, hread, hu⟩ := expression_of_occurs hrest hs hfuel h
      exact ⟨u, hread, h.le_length, hu⟩
  · intro e u h
    obtain ⟨-, rs, hrs, hall, hcount⟩ := charges_expression s.argumentLimit fuel s e u rfl h
    rw [Nat.zero_add] at hcount
    refine ⟨?_, rs, hrs, hall, hcount⟩
    have hsuffix := ((moves_expression fuel).ok h).rest.trans (hs ▸ List.drop_suffix p tokens)
    obtain ⟨front, hfront⟩ := hsuffix
    refine ⟨front.length, ?_, ?_⟩
    · rw [← hfront, List.length_append]
      omega
    · rw [← hfront, List.drop_left]
  · intro e q e' q' h h'
    obtain ⟨u, hread, hu⟩ := expression_of_occurs hrest hs hfuel h
    obtain ⟨u', hread', hu'⟩ := expression_of_occurs hrest hs hfuel h'
    rw [hread] at hread'
    cases hread'
    refine ⟨rfl, ?_⟩
    have hlength := congrArg List.length (hu.symm.trans hu')
    have := h.le_length
    have := h'.le_length
    simp only [List.length_drop] at hlength
    omega

/-- A product of a field and a negated name; the call in it has two arguments. -/
def productText : String :=
  "f(a, b + 1).c * -d) or"

theorem expression_exact_productText :
    let tokens := (Token.scan productText).stream.tokens
    let s := Cursor.start 1 (Token.scan productText).stream
    (∀ t ∈ tokens, t.isIndentation = false) ∧ s.rest = tokens.drop 0 ∧ s.rest.length ≤ 15 ∧
      ∃ e u, expression 15 s = .ok e u ∧ Occurs tokens 0 13 e ∧ u.reports.length = 1 := by
  intro tokens s
  have hreal : ∀ t ∈ tokens, t.isIndentation = false := by decide +kernel
  have hs : s.rest = tokens.drop 0 := List.drop_zero.symm
  have hfuel : s.rest.length ≤ 15 := by decide +kernel
  obtain ⟨hread, hreports, -⟩ := expression_exact hreal hs hfuel
  have hends : (match expression 15 s with
      | .ok e u => u.rest.length == 2 && e.excess 1 == 1
      | .error _ _ => false) = true := by decide +kernel
  refine ⟨hreal, hs, hfuel, ?_⟩
  cases h : expression 15 s with
  | error => rw [h] at hends; cases hends
  | ok e u =>
    rw [h, Bool.and_eq_true, beq_iff_eq, beq_iff_eq] at hends
    obtain ⟨⟨q, hq, hu⟩, rs, hrs, -, hcount⟩ := hreports e u h
    have hlength : tokens.length = 15 := by decide +kernel
    have hthirteen : q = 13 := by
      have := congrArg List.length hu
      rw [List.length_drop] at this
      omega
    subst hthirteen
    refine ⟨e, u, rfl, (hread e 13).1 ⟨u, h, hq, hu⟩, ?_⟩
    rw [hrs, List.length_append, hcount]
    exact (Nat.zero_add _).trans hends.2

end Reading
end Offside
