import Offside.Proofs.Reader.Consumption
import Offside.Proofs.Reader.Totality

/-!
# What is read without an error is a program

If nothing is reported, the statements are spelled by the tokens: every real token is used once, operators
group as their precedence demands, and every line stands where the off-side rule wants it.

* `Reading.Yields` — a step yields a value without a report;
* `Reading.Spelled` — what a step yields is spelled by the tokens that it has consumed;
* `Reading.Formed` — the same for steps that go on to further lines, which end where `Reading.MayEnd` holds;
* `Reading.read_sound` — the whole text.
-/

set_option autoImplicit false

namespace Offside.Reading

open Step Grammar
open Token (Kind)

variable {α β : Type} {s u : Cursor}

/-! ## Steps without a report -/

/-- The step yields the value and reports nothing. -/
def Yields (p : Reading α) (s : Cursor) (a : α) (u : Cursor) : Prop :=
  p s = .ok a u ∧ u.reports = s.reports

theorem Yields.of_bind {p : Reading α} {f : α → Reading β} {b : β} (hp : Moves p)
    (hf : ∀ a, Moves (f a)) (h : Yields (p >>= f) s b u) :
    ∃ a t, Yields p s a t ∧ Yields (f a) t b u := by
  obtain ⟨a, t, h₁, h₂⟩ := ok_of_bind h.1
  obtain ⟨ht, hu⟩ := (hp.ok h₁).silent ((hf a).ok h₂) h.2
  exact ⟨a, t, ⟨h₁, ht⟩, h₂, hu⟩

theorem Yields.of_pure {a b : α} (h : Yields (pure a) s b u) : a = b ∧ s = u :=
  ok_of_pure h.1

/-- What is given up is reported, so a fallback is not silent. -/
theorem Yields.of_recovering {p : Reading α} {fallback a : α} (hp : Moves p)
    (h : Yields (recovering p fallback) s a u) : Yields p s a u := by
  obtain ⟨hok, hsilent⟩ := h
  unfold recovering at hok
  split at hok
  · rename_i b t hb
    cases hok
    exact ⟨hb, hsilent⟩
  · rename_i e t he
    cases hok
    have hreported := (hp.error he).reported
    have hmore := t.leads_recover.reports.length_le
    rw [hsilent] at hmore
    omega

theorem Yields.of_limitCount {count : Nat} {what : String} (h : Yields (limitCount count what) s () u) :
    u = s ∧ count < s.argumentLimit := by
  obtain ⟨hok, hsilent⟩ := h
  unfold limitCount at hok
  split at hok
  · cases hok
    have := congrArg List.length hsilent
    simp [Cursor.complain] at this
  · rename_i hlt
    cases hok
    exact ⟨rfl, Nat.lt_of_not_le hlt⟩

/-! ## Steps within a line -/

/-- What the step yields without a report is related by `R` to the tokens that it has consumed. -/
def Spelled (limit : Nat) (R : α → List Token → Prop) (p : Reading α) : Prop :=
  ∀ s a u, s.argumentLimit = limit → Yields p s a u → ∃ ts, R a ts ∧ s.Passes ts u

namespace Spelled

variable {limit : Nat} {R : α → List Token → Prop} {R' : β → List Token → Prop}

theorem mono {Q : α → List Token → Prop} {p : Reading α} (h : Spelled limit R p)
    (hQ : ∀ a ts, R a ts → Q a ts) : Spelled limit Q p := by
  intro s a u hs hp
  obtain ⟨ts, hts, hpass⟩ := h s a u hs hp
  exact ⟨ts, hQ a ts hts, hpass⟩

theorem pure {a : α} (h : R a []) : Spelled limit R (pure a) := by
  intro s b u _ hp
  obtain ⟨rfl, rfl⟩ := hp.of_pure
  exact ⟨[], h, rfl⟩

theorem bind {p : Reading α} {f : α → Reading β} (hp : Spelled limit R p) (hm : Moves p)
    (hmf : ∀ a, Moves (f a))
    (hf : ∀ a as, R a as → Spelled limit (fun b bs => R' b (as ++ bs)) (f a)) :
    Spelled limit R' (p >>= f) := by
  intro s b u hs h
  obtain ⟨a, t, h₁, h₂⟩ := h.of_bind hm hmf
  obtain ⟨as, has, hst⟩ := hp s a t hs h₁
  obtain ⟨bs, hbs, htu⟩ := hf a as has t b u (hst.leads.argumentLimit.trans hs) h₂
  exact ⟨as ++ bs, hbs, hst.trans htu⟩

theorem map {p : Reading α} {g : α → β} (hp : Spelled limit R p) (hm : Moves p)
    (hg : ∀ a as, R a as → R' (g a) as) : Spelled limit R' (g <$> p) :=
  hp.bind hm (fun a => moves_pure (g a)) fun a as has => pure (by simpa using hg a as has)

theorem abandon {problem : Problem} : Spelled limit R (abandon problem) :=
  fun _ _ _ _ h => nomatch h.1

/-- A step that begins by accepting a token or not. -/
theorem accept? {p : Kind → Bool} {f : Option Token → Reading β}
    (hreal : ∀ k, p k = true → k.isIndentation = false) (hn : Spelled limit R' (f none))
    (hs : ∀ t, p t.kind = true → Spelled limit (fun b bs => R' b (t :: bs)) (f (some t))) :
    Spelled limit R' (accept? p >>= f) := by
  intro s b u hlimit h
  obtain ⟨r, m, h₁, h₂⟩ := ok_of_bind h.1
  cases r with
  | none =>
    rw [eq_of_accept?_none h₁] at h₂
    exact hn s b u hlimit ⟨h₂, h.2⟩
  | some t =>
    obtain ⟨ts, hrest, ht, rfl⟩ := rest_of_accept?_some h₁
    obtain ⟨bs, hbs, hpass⟩ := hs t ht (s.consume t ts) b u hlimit ⟨h₂, h.2⟩
    exact ⟨t :: bs, hbs, hreal t.kind ht, ts, hrest, hpass⟩

theorem expect {kind : Kind} {what : String} {f : Token → Reading β} (hreal : kind.isIndentation = false)
    (hf : ∀ t, t.kind = kind → Spelled limit (fun b bs => R' b (t :: bs)) (f t)) :
    Spelled limit R' (expect kind what >>= f) := by
  intro s b u hlimit h
  obtain ⟨t, m, h₁, h₂⟩ := ok_of_bind h.1
  obtain ⟨ts, hrest, ht, rfl⟩ := rest_of_expect h₁
  obtain ⟨bs, hbs, hpass⟩ := hf t ht (s.consume t ts) b u hlimit ⟨h₂, h.2⟩
  refine ⟨t :: bs, hbs, ?_, ts, hrest, hpass⟩
  show t.kind.isIndentation = false
  rw [ht, hreal]

/-- A list that may not grow longer. -/
theorem limitCount {count : Nat} {what : String} {f : Unit → Reading β} (hm : Moves (f ()))
    (hf : count < limit → Spelled limit R' (f ())) : Spelled limit R' (limitCount count what >>= f) := by
  intro s b u hlimit h
  obtain ⟨⟨⟩, t, h₁, h₂⟩ := h.of_bind (moves_limitCount count what) fun _ => hm
  obtain ⟨rfl, hlt⟩ := h₁.of_limitCount
  exact hf (by omega) t b u hlimit h₂

/-- Looking at the next token consumes nothing. -/
theorem check {p : Kind → Bool} {f : Bool → Reading β} (hf : ∀ found, Spelled limit R' (f found)) :
    Spelled limit R' (check p >>= f) := by
  intro s b u hlimit h
  obtain ⟨found, t, h₁, h₂⟩ := ok_of_bind h.1
  cases h₁
  exact hf _ s b u hlimit ⟨h₂, h.2⟩

end Spelled

/-! ## Expressions -/

section Expressions

variable {limit : Nat} {e operand : Reading (Expr Unit)}

theorem spelled_joinFrom {tier : Tier} {more : List Tier} (hop : Spelled limit (Spells limit more) operand)
    (hm : Moves operand) (fuel : Nat) {left : Expr Unit} {as : List Token}
    (hleft : Spells limit (tier :: more) left as) :
    Spelled limit (fun e ts => Spells limit (tier :: more) e (as ++ ts))
      (joinFrom tier operand fuel left) := by
  induction fuel generalizing left as with
  | zero => exact .pure (by simpa using hleft)
  | succ fuel ih =>
    refine Spelled.accept? (fun k hk => not_isIndentation_of_isPlain (isPlain_of_isOperator hk)) ?_ ?_
    · exact .pure (by simpa using hleft)
    · intro operator hoperator
      refine hop.bind hm (fun right => hm.joinFrom tier fuel _) fun right bs hright => ?_
      exact (ih (.join hleft hoperator hright)).mono fun e ts h => by simpa using h

theorem spelled_leftAssociative {tier : Tier} {more : List Tier}
    (hop : Spelled limit (Spells limit more) operand) (hm : Moves operand) (fuel : Nat) :
    Spelled limit (Spells limit (tier :: more)) (leftAssociative tier fuel operand) :=
  hop.bind hm (fun first => hm.joinFrom tier fuel first) fun _ _ hfirst =>
    spelled_joinFrom hop hm fuel (.tighter hfirst)

theorem spelled_signed (hop : Spelled limit (Operand limit) operand) (hm : Moves operand) (fuel : Nat) :
    Spelled limit (Spells limit []) (signed operand fuel) := by
  have hoperand : Spelled limit (Spells limit []) operand := hop.mono fun _ _ h => .operand h
  induction fuel with
  | zero => exact hoperand
  | succ fuel ih =>
    refine Spelled.accept? (fun k hk => not_isIndentation_of_isPlain (isPlain_of_isSign hk)) hoperand ?_
    intro operator hoperator
    exact ih.map (hm.signed fuel) fun _ _ h => .sign hoperator h

theorem spelled_argumentsFrom (he : Spelled limit (Spells limit tiers) e) (hm : Moves e) (fuel : Nat)
    (read : List (Expr Unit)) :
    Spelled limit (fun es ts => ∃ more, es = read ++ more ∧ more ≠ [] ∧ Listed limit more ts ∧
      es.length ≤ limit) (argumentsFrom e fuel read) := by
  induction fuel generalizing read with
  | zero => exact .abandon
  | succ fuel ih =>
    have hnext (es : List (Expr Unit)) : Moves (argumentsFrom e fuel es) := hm.argumentsFrom fuel es
    refine Spelled.limitCount (hm.bind fun _ => moves_accept?_bind (moves_pure _) fun _ => hnext _) fun hlt => ?_
    refine he.bind hm (fun _ => moves_accept?_bind (moves_pure _) fun _ => hnext _) fun argument as has => ?_
    refine Spelled.accept? (fun k hk => by rw [eq_of_beq hk]; rfl) ?_ ?_
    · refine .pure ⟨[argument], rfl, by simp, by simpa using Listed.one has, ?_⟩
      simp only [List.length_append, List.length_singleton]
      omega
    · intro comma hcomma
      refine (ih (read ++ [argument])).mono ?_
      rintro es bs ⟨more, rfl, hne, hmore, hlen⟩
      exact ⟨argument :: more, by simp, by simp, .more has (eq_of_beq hcomma) hmore hne, hlen⟩

theorem spelled_argumentList (he : Spelled limit (Spells limit tiers) e) (hm : Moves e) (fuel : Nat) :
    Spelled limit (fun es ts => Listed limit es ts ∧ es.length ≤ limit) (argumentList e fuel) := by
  refine Spelled.check fun closed => ?_
  cases closed with
  | true => exact .pure ⟨.none, Nat.zero_le limit⟩
  | false =>
    refine (spelled_argumentsFrom he hm fuel []).mono ?_
    rintro es ts ⟨more, rfl, _, hmore, hlen⟩
    exact ⟨hmore, hlen⟩

theorem spelled_finishCall (he : Spelled limit (Spells limit tiers) e) (hm : Moves e) (fuel : Nat)
    {callee : Expr Unit} {as : List Token} {opening : Token} (hcallee : Operand limit callee as)
    (hopening : opening.kind = .leftParen) :
    Spelled limit (fun e ts => Operand limit e (as ++ opening :: ts)) (finishCall e fuel callee) := by
  refine (spelled_argumentList he hm fuel).bind (hm.argumentList fuel)
    (fun _ => (moves_expect _ _).bind fun _ => moves_pure _) ?_
  rintro arguments bs ⟨hlisted, hlen⟩
  refine Spelled.expect rfl fun closing hclosing => .pure ?_
  exact .call hcallee hopening hlisted hlen hclosing

theorem spelled_suffixesFrom (he : Spelled limit (Spells limit tiers) e) (hm : Moves e) (bound fuel : Nat)
    {left : Expr Unit} {as : List Token} (hleft : Operand limit left as) :
    Spelled limit (fun e ts => Operand limit e (as ++ ts)) (suffixesFrom e bound fuel left) := by
  induction fuel generalizing left as with
  | zero => exact .pure (by simpa using hleft)
  | succ fuel ih =>
    refine Spelled.accept? (fun k hk => by rw [eq_of_beq hk]; rfl) ?_ ?_
    · refine Spelled.accept? (fun k hk => by rw [eq_of_beq hk]; rfl) (.pure (by simpa using hleft)) ?_
      intro dot hdot
      refine Spelled.expect rfl fun field hfield => ?_
      exact (ih (.getField hleft (eq_of_beq hdot) hfield)).mono fun e ts h => by simpa using h
    · intro opening hopening
      refine (spelled_finishCall he hm bound hleft (eq_of_beq hopening)).bind (hm.finishCall bound left)
        (fun call => hm.suffixesFrom bound fuel call) fun call bs hcall => ?_
      exact (ih hcall).mono fun e ts h => by simpa using h

theorem spelled_primaryFrom (he : Spelled limit (Spells limit tiers) e) (hm : Moves e) {t : Token}
    (ht : startsPrimary t.kind = true) :
    Spelled limit (fun e ts => Operand limit e (t :: ts)) (primaryFrom e t) := by
  unfold primaryFrom
  split
  · rename_i hkind
    refine Spelled.expect rfl fun dot hdot => Spelled.expect rfl fun method hmethod => .pure ?_
    exact .superRef hkind hdot hmethod
  · rename_i hkind
    exact .pure (.thisRef hkind)
  · rename_i hkind
    exact .pure (.name hkind)
  · rename_i hkind
    refine he.bind hm (fun _ => (moves_expect _ _).bind fun _ => moves_pure _) fun inner ts hinner => ?_
    exact Spelled.expect rfl fun closing hclosing => .pure (.group hkind hinner hclosing)
  · obtain ⟨value, hvalue⟩ : ∃ value, literalOf? t = some value := by
      revert ht
      unfold literalOf?
      cases hkind : t.kind <;> simp_all [startsPrimary]
    refine .pure ?_
    rw [hvalue]
    exact .literal hvalue

theorem not_isIndentation_of_startsPrimary {k : Kind} (h : startsPrimary k = true) :
    k.isIndentation = false := by
  revert h
  cases k <;> decide

theorem spelled_primary (he : Spelled limit (Spells limit tiers) e) (hm : Moves e) :
    Spelled limit (Operand limit) (primary e) :=
  Spelled.accept? (fun _ => not_isIndentation_of_startsPrimary) .abandon fun _ ht =>
    spelled_primaryFrom he hm ht

theorem spelled_postfixed (he : Spelled limit (Spells limit tiers) e) (hm : Moves e) (fuel : Nat) :
    Spelled limit (Operand limit) (postfixed e fuel) :=
  (spelled_primary he hm).bind hm.primary (fun first => hm.suffixesFrom fuel fuel first)
    fun _ _ hfirst => spelled_suffixesFrom he hm fuel fuel hfirst

theorem spelled_levels (he : Spelled limit (Spells limit tiers) e) (hm : Moves e) (fuel : Nat)
    (T : List Tier) : Spelled limit (Spells limit T) (levels fuel e T) := by
  induction T with
  | nil => exact spelled_signed (spelled_postfixed he hm fuel) (hm.postfixed fuel) fuel
  | cons tier more ih => exact spelled_leftAssociative ih (hm.levels fuel more) fuel

end Expressions

/-- An expression that is read without a report is spelled by its tokens, grouped by precedence. -/
theorem spelled_expression (limit fuel : Nat) :
    Spelled limit (Spells limit tiers) (expression fuel) := by
  induction fuel with
  | zero => exact .abandon
  | succ fuel ih => exact spelled_levels ih (moves_expression fuel) (fuel + 1) tiers

/-! ## Simple statements -/

theorem spelled_paramsFrom (limit fuel : Nat) (read : List Token) :
    Spelled limit (fun names ts => ∃ more, names = read ++ more ∧ more ≠ [] ∧ Params more ts ∧
      names.length ≤ limit) (paramsFrom fuel read) := by
  induction fuel generalizing read with
  | zero => exact .abandon
  | succ fuel ih =>
    refine Spelled.limitCount ((moves_expect _ _).bind fun _ =>
      moves_accept?_bind (moves_pure _) fun _ => moves_paramsFrom fuel _) fun hlt => ?_
    refine Spelled.expect rfl fun name hname => ?_
    refine Spelled.accept? (fun k hk => by rw [eq_of_beq hk]; rfl) ?_ ?_
    · refine .pure ⟨[name], rfl, by simp, .one hname, ?_⟩
      simp only [List.length_append, List.length_singleton]
      omega
    · intro comma hcomma
      refine (ih (read ++ [name])).mono ?_
      rintro names ts ⟨more, rfl, hne, hmore, hlen⟩
      exact ⟨name :: more, by simp, by simp, .more hname (eq_of_beq hcomma) hmore hne, hlen⟩

theorem spelled_paramList (limit fuel : Nat) :
    Spelled limit (fun names ts => Params names ts ∧ names.length ≤ limit) (paramList fuel) := by
  refine Spelled.check fun closed => ?_
  cases closed with
  | true => exact .pure ⟨.none, Nat.zero_le limit⟩
  | false =>
    refine (spelled_paramsFrom limit fuel []).mono ?_
    rintro names ts ⟨more, rfl, _, hmore, hlen⟩
    exact ⟨hmore, hlen⟩

theorem spelled_enclosedParams (limit fuel : Nat) (what : String) :
    Spelled limit (fun names ts => ∃ opening as closing, ts = opening :: (as ++ [closing]) ∧
      opening.kind = .leftParen ∧ Params names as ∧ names.length ≤ limit ∧ closing.kind = .rightParen)
      (enclosedParams fuel what) := by
  refine Spelled.expect rfl fun opening hopening => ?_
  refine (spelled_paramList limit fuel).bind (moves_paramList fuel)
    (fun _ => (moves_expect _ _).bind fun _ => moves_pure _) ?_
  rintro names as ⟨hnames, hlen⟩
  refine Spelled.expect rfl fun closing hclosing => .pure ?_
  exact ⟨opening, as, closing, rfl, hopening, hnames, hlen, hclosing⟩

theorem spelled_returnType (limit : Nat) : Spelled limit ReturnType returnType := by
  refine Spelled.accept? (fun k hk => by rw [eq_of_beq hk]; rfl) (.pure .none) fun colons hcolons => ?_
  refine Spelled.accept? (fun k hk => ?_) .abandon fun type htype => .pure (.some (eq_of_beq hcolons) ?_)
  · rcases (Bool.or_eq_true _ _).mp hk with hk | hk <;> (rw [eq_of_beq hk]; rfl)
  · rcases (Bool.or_eq_true _ _).mp htype with ht | ht
    · exact Or.inl (eq_of_beq ht)
    · exact Or.inr (eq_of_beq ht)

theorem spelled_superclass (limit : Nat) : Spelled limit Superclass superclass := by
  refine Spelled.accept? (fun k hk => by rw [eq_of_beq hk]; rfl) (.pure .none) fun colons hcolons => ?_
  exact Spelled.expect rfl fun name hname => .pure (.some (eq_of_beq hcolons) hname)

theorem spelled_assignTo (limit : Nat) {target value : Expr Unit} {mark : Token} {as bs : List Token}
    (htarget : Spells limit tiers target as) (hmark : mark.kind = .toWord)
    (hvalue : Spells limit tiers value bs) :
    Spelled limit (fun stmt ts => Simple limit stmt (as ++ mark :: bs ++ ts))
      (assignTo target mark value) := by
  unfold assignTo
  split
  · cases htarget.operand_of rfl with
    | name hname => exact .pure (by simpa using Simple.assign hname hmark hvalue)
  · cases htarget.operand_of rfl with
    | getField hobject hdot hfield =>
      exact .pure (by simpa using Simple.setField hobject hdot hfield hmark hvalue)
  · -- Any other target is reported.
    intro s stmt u _ h
    obtain ⟨hok, hsilent⟩ := h
    cases hok
    have := congrArg List.length hsilent
    simp [Cursor.complain] at this

theorem spelled_assignment (limit fuel : Nat) : Spelled limit (Simple limit) (assignment fuel) := by
  refine (spelled_expression limit fuel).bind (moves_expression fuel)
    (fun target => moves_assignmentFrom fuel target) fun target as htarget => ?_
  refine Spelled.accept? (fun k hk => by rw [eq_of_beq hk]; rfl) ?_ fun mark hmark => ?_
  · exact .pure (by simpa using Simple.evaluate htarget)
  · refine (spelled_expression limit fuel).bind (moves_expression fuel)
      (fun value => moves_assignTo target mark value) fun value bs hvalue => ?_
    exact (spelled_assignTo limit htarget (eq_of_beq hmark) hvalue).mono fun stmt ts h => by
      simpa using h

theorem spelled_givenBack (limit fuel : Nat) (word : Token) :
    Spelled limit (GivenBack limit word) (givenBack fuel word) := by
  intro s stmt u hlimit h
  obtain ⟨s', t, h₁, h₂⟩ := ok_of_bind h.1
  cases h₁
  split at h₂
  · rename_i hsame
    obtain ⟨e, he, rfl⟩ := ok_of_map h₂
    obtain ⟨ts, hts, hpass⟩ := spelled_expression limit fuel s e u hlimit ⟨he, h.2⟩
    refine ⟨ts, .value hts ?_, hpass⟩
    obtain ⟨first, us, rfl, -⟩ := hts.head
    obtain ⟨-, rest, hrest, -⟩ := hpass
    simpa [Cursor.current, Cursor.firstOf, hrest] using hsame
  · exact Spelled.pure .nothing s stmt u hlimit ⟨h₂, h.2⟩

/-! ## Steps over lines -/

/-- A line may end here: what follows is indentation, or it is not on the line of the token consumed last. -/
def MayEnd (s : Cursor) : Prop :=
  ∀ t ∈ s.rest.head?, t.isIndentation = false → t.line ≠ s.lastLine

/-- In front of an indented line another one may end. -/
theorem mayEnd_of_reads {ends : Cursor → Prop} {lines : List Line} (hlines : Inset lines)
    (h : s.Reads ends lines u) : MayEnd s := by
  obtain ⟨line, more, rfl, hwidth⟩ := hlines
  obtain ⟨hholds, -⟩ := h
  intro t ht hreal
  obtain ⟨rest, hrest⟩ := List.head?_eq_some_iff.1 ht
  have hrun : lineRun s.rest = ([], t :: rest) := by
    rw [hrest]
    exact lineRun_of_real hreal rest
  have hlength := hholds.length
  rw [hrun] at hlength
  exact absurd hlength (Nat.ne_of_lt hwidth)

/-- What the step yields without a report is related by `R` to the tokens that it has consumed on its line
and to the lines behind them. -/
def Formed (limit : Nat) (l : Layout) (k : Nat) (R : α → List Token → List Line → Prop)
    (p : Reading α) : Prop :=
  ∀ s a u, Stands limit l k s → Yields p s a u →
    ∃ ts lines m, R a ts lines ∧ s.Passes ts m ∧ m.Reads MayEnd lines u

/-- What the step yields in front of a line, without a report, is related by `R` to the lines that it has
read. -/
def FormedLine (limit : Nat) (l : Layout) (k : Nat) (R : α → List Line → Prop) (item : Reading α) :
    Prop :=
  ∀ s a u, Stands limit l k s → (lineRun s.rest).2 ≠ [] → Yields item s a u →
    ∃ lines, R a lines ∧ s.Reads MayEnd lines u

namespace Formed

variable {limit k : Nat} {l : Layout} {R : α → List Token → List Line → Prop}
  {Q : β → List Token → List Line → Prop}

theorem mono {R' : α → List Token → List Line → Prop} {p : Reading α} (h : Formed limit l k R p)
    (hR : ∀ a ts lines, R a ts lines → R' a ts lines) : Formed limit l k R' p := by
  intro s a u hs hp
  obtain ⟨ts, lines, m, hRa, hpass, hread⟩ := h s a u hs hp
  exact ⟨ts, lines, m, hR a ts lines hRa, hpass, hread⟩

theorem weaken {j : Nat} {p : Reading α} (h : Formed limit l k R p) (hj : j ≤ k) :
    Formed limit l j R p :=
  fun s a u hs => h s a u (hs.mono hj)

/-- A step within a line. -/
theorem of_spelled {P : α → List Token → Prop} {p : Reading α} (h : Spelled limit P p)
    (hR : ∀ a ts, P a ts → R a ts []) : Formed limit l k R p := by
  intro s a u hs hp
  obtain ⟨ts, hts, hpass⟩ := h s a u hs.argumentLimit hp
  exact ⟨ts, [], u, hR a ts hts, hpass, rfl⟩

/-- Behind a part of the line whose parentheses match. -/
theorem bind {P : α → List Token → Prop} {p : Reading α} {f : α → Reading β} (hp : Spelled limit P p)
    (hm : Moves p) (hmf : ∀ a, Moves (f a)) (hbal : ∀ a as, P a as → Balanced as)
    (hf : ∀ a as, P a as → Formed limit l k (fun b bs lines => Q b (as ++ bs) lines) (f a)) :
    Formed limit l k Q (p >>= f) := by
  intro s b u hs h
  obtain ⟨a, t, h₁, h₂⟩ := h.of_bind hm hmf
  obtain ⟨as, has, hst⟩ := hp s a t hs.argumentLimit h₁
  obtain ⟨bs, lines, m, hQ, hpass, hread⟩ := hf a as has t b u (hs.passes (hbal a as has) hst) h₂
  exact ⟨as ++ bs, lines, m, hQ, hst.trans hpass, hread⟩

theorem bind_pure {p : Reading α} {g : α → β} (hp : Formed limit l k R p)
    (hg : ∀ a ts lines, R a ts lines → Q (g a) ts lines) :
    Formed limit l k Q (p >>= fun a => pure (g a)) := by
  intro s b u hs h
  obtain ⟨a, ha, rfl⟩ := ok_of_map h.1
  obtain ⟨ts, lines, m, hR, hpass, hread⟩ := hp s a u hs ⟨ha, h.2⟩
  exact ⟨ts, lines, m, hg a ts lines hR, hpass, hread⟩

theorem expect {kind : Kind} {what : String} {f : Token → Reading β} (hplain : isPlain kind = true)
    (hf : ∀ t, t.kind = kind → Formed limit l (k - 1) (fun b bs lines => Q b (t :: bs) lines) (f t)) :
    Formed limit l k Q (expect kind what >>= f) := by
  intro s b u hs h
  obtain ⟨t, m, h₁, h₂⟩ := ok_of_bind h.1
  obtain ⟨rest, hrest, ht, rfl⟩ := rest_of_expect h₁
  have htplain : isPlain t.kind = true := by rw [ht, hplain]
  obtain ⟨bs, lines, m, hQ, hpass, hread⟩ :=
    hf t ht (s.consume t rest) b u (hs.consume hrest htplain) ⟨h₂, h.2⟩
  exact ⟨t :: bs, lines, m, hQ, ⟨not_isIndentation_of_isPlain htplain, rest, hrest, hpass⟩, hread⟩

theorem accept? {p : Kind → Bool} {f : Option Token → Reading β}
    (hplain : ∀ k, p k = true → isPlain k = true) (hn : Formed limit l k Q (f none))
    (hsome : ∀ t, p t.kind = true →
      Formed limit l (k - 1) (fun b bs lines => Q b (t :: bs) lines) (f (some t))) :
    Formed limit l k Q (accept? p >>= f) := by
  intro s b u hs h
  obtain ⟨r, m, h₁, h₂⟩ := ok_of_bind h.1
  cases r with
  | none =>
    rw [eq_of_accept?_none h₁] at h₂
    exact hn s b u hs ⟨h₂, h.2⟩
  | some t =>
    obtain ⟨rest, hrest, ht, rfl⟩ := rest_of_accept?_some h₁
    obtain ⟨bs, lines, m, hQ, hpass, hread⟩ :=
      hsome t ht (s.consume t rest) b u (hs.consume hrest (hplain _ ht)) ⟨h₂, h.2⟩
    exact ⟨t :: bs, lines, m, hQ, ⟨not_isIndentation_of_isPlain (hplain _ ht), rest, hrest, hpass⟩, hread⟩

end Formed

theorem FormedLine.mono {limit j k : Nat} {l : Layout} {R : α → List Line → Prop} {item : Reading α}
    (h : FormedLine limit l k R item) (hj : j ≤ k) : FormedLine limit l j R item :=
  fun s a u hs => h s a u (hs.mono hj)

/-! ## Lines and blocks -/

theorem Yields.of_beginLine (h : Yields beginLine s () u) :
    u = s.begun ∧ s.layout.Holds (lineRun s.rest).1 := by
  obtain ⟨hok, hsilent⟩ := h
  unfold beginLine at hok
  simp only at hok
  split at hok
  · rename_i hcontinues
    cases hok
    exact ⟨rfl, Layout.holds_of_continues hcontinues⟩
  · cases hok

theorem Yields.of_endStatement (h : Yields endStatement s () u) : u = s := by
  obtain ⟨hok, hsilent⟩ := h
  unfold endStatement at hok
  split at hok
  · cases hok; rfl
  · split at hok
    · cases hok
    · cases hok; rfl

theorem Yields.mayEnd (h : Yields endStatement s () u) : MayEnd s := by
  intro t ht hreal hline
  obtain ⟨rest, hrest⟩ := List.head?_eq_some_iff.1 ht
  have hok := h.1
  unfold endStatement at hok
  rw [hrest] at hok
  simp [hreal, hline] at hok

section Lines

variable {limit k : Nat} {l : Layout} {item : Reading (Option α)} {R : α → List Line → Prop}
  {Rs : List α → List Line → Prop}

/-- The loop over lines collects what its passes yield. -/
theorem formed_items (hm : Moves item) (hproper : ∀ a lines, R a lines → ∀ line ∈ lines, line.Proper)
    (hnil : Rs [] []) (hcons : ∀ a as first rest, R a first → Rs as rest → Rs (a :: as) (first ++ rest))
    (hitem : FormedLine limit l k (fun o lines => ∃ a, o = some a ∧ R a lines) item) (fuel : Nat)
    {as : List α} (hs : Stands limit l k s) (h : Yields (items item fuel) s as u) :
    ∃ lines, Rs as lines ∧ s.Reads MayEnd lines u ∧
      (fuel ≠ 0 → (lineRun s.rest).2 ≠ [] → l.closes (lineRun s.rest).1 = false → as ≠ []) := by
  induction fuel generalizing s as with
  | zero =>
    obtain ⟨rfl, rfl⟩ := h.of_pure
    exact ⟨[], hnil, rfl, fun h0 => absurd rfl h0⟩
  | succ fuel ih =>
    obtain ⟨hok, hsilent⟩ := h
    unfold items at hok
    simp only at hok
    split at hok
    · rename_i hstop
      cases hok
      refine ⟨[], hnil, rfl, fun _ hline hopen => ?_⟩
      rw [hs.layout, hopen, Bool.or_false, List.isEmpty_iff] at hstop
      exact absurd hstop hline
    · rename_i hmore
      have hline : (lineRun s.rest).2 ≠ [] := by
        intro hnil
        simp [hnil] at hmore
      have hrest := hm.items fuel
      obtain ⟨first, t, hfirst, hnext⟩ := Yields.of_bind hm (fun _ => hrest.bind fun _ => moves_pure _)
        ⟨hok, hsilent⟩
      obtain ⟨more, v, hmore', hpure⟩ := hnext.of_bind hrest fun _ => moves_pure _
      obtain ⟨rfl, rfl⟩ := hpure.of_pure
      obtain ⟨lines, ⟨a, rfl, hRa⟩, hread⟩ := hitem s first t hs hline hfirst
      obtain ⟨lines', hRs, hread', -⟩ := ih (hs.reads (hproper a lines hRa) hread) hmore'
      exact ⟨lines ++ lines', hcons a more lines lines' hRa hRs, hread.trans hread', by simp⟩

/-- A block has at least one line, and its indentation is one that may be opened. -/
theorem formed_indented (R : Layout → α → List Line → Prop) (Rs : Layout → List α → List Line → Prop)
    (hm : Moves item) (hproper : ∀ l a lines, R l a lines → ∀ line ∈ lines, line.Proper)
    (hnil : ∀ l, Rs l [] [])
    (hcons : ∀ l a as first rest, R l a first → Rs l as rest → Rs l (a :: as) (first ++ rest))
    (hitem : ∀ l, FormedLine limit l k (fun o lines => ∃ a, o = some a ∧ R l a lines) item) {fuel : Nat}
    (hfuel : fuel ≠ 0) {as : List α} (hs : Stands limit l k s)
    (h : Yields (indented fuel item) s as u) :
    ∃ inner lines, l.Opens inner ∧ Rs inner as lines ∧ as ≠ [] ∧ s.Reads MayEnd lines u := by
  obtain ⟨hok, hsilent⟩ := h
  unfold indented at hok
  simp only at hok
  split at hok
  · cases hok
  · rename_i inner henter
    rw [hs.layout, Layout.enter?_eq_ok_iff] at henter
    obtain ⟨hopens, hholds⟩ := henter
    have hrun : (lineRun s.rest).1 ≠ [] := by
      intro hnil
      have := hopens.width_lt
      rw [← hholds.length, hnil] at this
      exact absurd this (Nat.not_lt_zero _)
    unfold within at hok
    split at hok
    · rename_i bs t hbody
      cases hok
      obtain ⟨lines, hRs, hread, hne⟩ := formed_items hm (hproper inner) (hnil inner) (hcons inner)
        (hitem inner) fuel (hs.relayout inner) ⟨hbody, hsilent⟩
      have hopen := Layout.closes_of_continues (Layout.continues_of_holds hholds fun _ => hrun)
      refine ⟨inner, lines, hopens, hRs, hne hfuel (lineRun_snd_ne_nil hrun) hopen, ?_⟩
      exact hread.relayout (fun _ _ h => h) s.layout
    · cases hok

end Lines

/-! ## Statements -/

section Statements

variable {limit k : Nat} {l : Layout} {item : Reading (Stmt Unit)}

theorem FormedLine.some {R : α → List Line → Prop} {item : Reading α} (h : FormedLine limit l k R item) :
    FormedLine limit l k (fun o lines => ∃ a, o = some a ∧ R a lines) (some <$> item) := by
  intro s o u hs hline hyield
  obtain ⟨a, ha, rfl⟩ := ok_of_map hyield.1
  obtain ⟨lines, hR, hread⟩ := h s a u hs hline ⟨ha, hyield.2⟩
  exact ⟨lines, ⟨a, rfl, hR⟩, hread⟩

theorem formed_block (hm : Moves item) (hitem : ∀ l, FormedLine limit l k (Statement limit l) item)
    {fuel : Nat} (hfuel : fuel ≠ 0) :
    Formed limit l k (fun body ts lines => ts = [] ∧ Block limit l body lines) (block fuel item) := by
  intro s body u hs h
  obtain ⟨inner, lines, hopens, hbody, hne, hread⟩ := formed_indented (Statement limit)
    (Statements limit) (hm.map Option.some) (fun _ _ _ h => h.proper) (fun _ => .nil)
    (fun _ _ _ _ _ h hs => .cons h hs) (fun l => (hitem l).some) hfuel hs h
  exact ⟨[], lines, s, ⟨rfl, .intro hopens hbody hne⟩, rfl, hread⟩

/-- The words behind a function name. -/
theorem balanced_enclosed {names ts : List Token}
    (h : ∃ opening as closing, ts = opening :: (as ++ [closing]) ∧ opening.kind = .leftParen ∧
      Params names as ∧ names.length ≤ limit ∧ closing.kind = .rightParen) : Balanced ts := by
  obtain ⟨opening, as, closing, rfl, ho, hp, -, hc⟩ := h
  exact hp.balanced.enclosed ho hc

theorem formed_routine (hm : Moves item) (hitem : ∀ l, FormedLine limit l k (Statement limit l) item)
    {fuel : Nat} (hfuel : fuel ≠ 0) (what : String) :
    Formed limit l k (Function limit l) (routine fuel item what) := by
  have hbody := hm.block fuel
  refine Formed.expect rfl fun name hname => ?_
  refine Formed.bind (spelled_enclosedParams limit fuel what) (moves_enclosedParams fuel what)
    (fun params => moves_returnType.bind fun type => (moves_expect _ _).bind fun _ =>
      hbody.bind fun body => moves_pure _) (fun _ _ => balanced_enclosed) ?_
  rintro params _ ⟨opening, as, closing, rfl, hopening, hparams, hlen, hclosing⟩
  refine Formed.bind (spelled_returnType limit) moves_returnType
    (fun type => (moves_expect _ _).bind fun _ => hbody.bind fun body => moves_pure _)
    (fun _ _ h => h.balanced) fun type bs htype => ?_
  refine Formed.expect rfl fun colon hcolon => ?_
  refine (formed_block hm (fun l => (hitem l).mono (by omega)) hfuel).bind_pure ?_
  rintro body _ lines ⟨rfl, hblock⟩
  simpa using Function.intro hname hopening hparams hlen hclosing htype hcolon hblock

/-- The lines spell a method. -/
def Method (limit : Nat) (l : Layout) (r : Routine Unit) (lines : List Line) : Prop :=
  ∃ word ts inner, lines = ⟨l, word :: ts⟩ :: inner ∧ word.kind = .functionWord ∧
    Function limit l r ts inner

theorem Method.proper {r : Routine Unit} {lines : List Line} (h : Method limit l r lines) :
    ∀ line ∈ lines, line.Proper := by
  obtain ⟨word, ts, inner, rfl, hword, hfunction⟩ := h
  have hmethods : Methods limit l [r] (⟨l, word :: ts⟩ :: (inner ++ [])) :=
    .cons hword hfunction .nil
  simpa using hmethods.proper

theorem formed_method (hm : Moves item) (hitem : ∀ l, FormedLine limit l k (Statement limit l) item)
    {fuel : Nat} (hfuel : fuel ≠ 0) :
    FormedLine limit l k (fun o lines => ∃ r, o = some r ∧ Method limit l r lines)
      (method fuel item) := by
  intro s o u hs _ h
  have hline := hm.methodLine fuel
  obtain ⟨r, hr, rfl⟩ := ok_of_map (h.of_recovering (hline.map some)).1
  obtain ⟨⟨⟩, t, hbegin, hnext⟩ := Yields.of_bind moves_beginLine
    (fun _ => (moves_expect _ _).bind fun _ => hm.routine fuel "method") ⟨hr, h.2⟩
  obtain ⟨rfl, hholds⟩ := hbegin.of_beginLine
  have hmethod : Formed limit l k (fun r ts lines => ∃ word us, ts = word :: us ∧
      word.kind = .functionWord ∧ Function limit l r us lines)
      (expect .functionWord "method declaration" >>= fun _ => routine fuel item "method") := by
    refine Formed.expect rfl fun word hword => ?_
    refine (formed_routine hm (fun l => (hitem l).mono (by omega)) hfuel "method").mono ?_
    exact fun r ts lines hr => ⟨word, ts, rfl, hword, hr⟩
  obtain ⟨_, lines, m, ⟨word, us, rfl, hword, hfunction⟩, hpass, hread⟩ :=
    hmethod s.begun r u hs.begun hnext
  rw [hs.layout] at hholds
  exact ⟨⟨l, word :: us⟩ :: lines, ⟨r, rfl, word, us, lines, rfl, hword, hfunction⟩,
    hholds, m, hpass, mayEnd_of_reads hfunction.inset hread, hread⟩

theorem formed_classDef (hm : Moves item) (hitem : ∀ l, FormedLine limit l k (Statement limit l) item)
    {fuel : Nat} (hfuel : fuel ≠ 0) {word : Token} (hword : word.kind = .classWord) :
    Formed limit l k (fun stmt ts lines => Statement limit l stmt (⟨l, word :: ts⟩ :: lines))
      (classDef fuel item) := by
  have hbody := (hm.method fuel).indented fuel
  refine Formed.expect rfl fun name hname => ?_
  refine Formed.bind (spelled_superclass limit) moves_superclass
    (fun parent => (moves_expect _ _).bind fun _ => hbody.bind fun _ => moves_pure _)
    (fun _ _ h => h.balanced) fun parent ts hparent => ?_
  refine Formed.expect rfl fun colon hcolon => ?_
  have hmethods : Formed limit l (k - 1 - 1) (fun methods ts lines => ts = [] ∧ methods ≠ [] ∧
      ∃ inner, l.Opens inner ∧ Methods limit inner methods lines) (indented fuel (method fuel item)) := by
    intro s methods u hs h
    obtain ⟨inner, lines, hopens, hmethods, hne, hread⟩ := formed_indented (Method limit) (Methods limit)
      (hm.method fuel) (fun _ _ _ h => h.proper) (fun _ => .nil)
      (by
        rintro l r rs _ rest ⟨word, ts, inner, rfl, hword, hr⟩ hrs
        exact .cons hword hr hrs)
      (fun l => formed_method hm (fun l => (hitem l).mono (by omega)) hfuel) hfuel hs h
    exact ⟨[], lines, s, ⟨rfl, hne, inner, hopens, hmethods⟩, rfl, hread⟩
  refine hmethods.bind_pure ?_
  rintro methods _ lines ⟨rfl, hne, inner, hopens, hmethods⟩
  simpa using Statement.classDef hword hname hparent hcolon hopens hmethods hne

theorem Yields.of_acceptElse {found : Bool} (h : Yields acceptElse s found u) :
    (found = false ∧ u = s) ∨
    (found = true ∧ s.layout.Holds (lineRun s.rest).1 ∧ ∃ word rest, word.kind = .elseWord ∧
      s.begun.rest = word :: rest ∧ u = { s with rest := rest, lastLine := word.line }) := by
  obtain ⟨hok, hsilent⟩ := h
  unfold acceptElse at hok
  simp only at hok
  split at hok
  · cases hok
    exact Or.inl ⟨rfl, rfl⟩
  · rename_i word rest hrest
    split at hok
    · rename_i hword
      cases hok
      rw [Bool.and_eq_true, beq_iff_eq] at hword
      exact Or.inr ⟨rfl, Layout.holds_of_continues hword.2, word, rest, hword.1, hrest, rfl⟩
    · cases hok
      exact Or.inl ⟨rfl, rfl⟩

theorem formed_alternative {next : Reading (Stmt Unit)} (hm : Moves item)
    (hitem : ∀ l, FormedLine limit l k (Statement limit l) item) {fuel : Nat} (hfuel : fuel ≠ 0)
    (hnext : Formed limit l (k - 1) (Branch limit l) next) {word : Token}
    (hword : word.kind = .elseWord) :
    Formed limit l k (fun stmt ts lines => Otherwise limit l (some stmt) (⟨l, word :: ts⟩ :: lines))
      (alternative fuel item next) := by
  refine Formed.accept? (fun k hk => by rw [eq_of_beq hk]; rfl) ?_ fun word' hword' => ?_
  · refine Formed.expect rfl fun colon hcolon => ?_
    refine (formed_block hm (fun l => (hitem l).mono (by omega)) hfuel).bind_pure ?_
    rintro body _ lines ⟨rfl, hblock⟩
    exact .block hword hcolon hblock
  · exact hnext.mono fun stmt ts lines hbranch => .branch hword (eq_of_beq hword') hbranch

theorem formed_otherwise {next : Reading (Stmt Unit)} (hm : Moves item)
    (hitem : ∀ l, FormedLine limit l k (Statement limit l) item) {fuel : Nat} (hfuel : fuel ≠ 0)
    (hmn : Moves next) (hnext : Formed limit l (k - 1) (Branch limit l) next) {other : Option (Stmt Unit)}
    (hs : Stands limit l k s) (h : Yields (otherwise fuel item next) s other u) :
    ∃ lines, Otherwise limit l other lines ∧ s.Reads MayEnd lines u := by
  have hmoves := hm.alternative hmn fuel
  obtain ⟨found, t, helse, hrest⟩ := h.of_bind moves_acceptElse fun found => by
    cases found with
    | false => exact moves_pure none
    | true => exact hmoves.map some
  rcases helse.of_acceptElse with ⟨rfl, rfl⟩ | ⟨rfl, hholds, word, rest, hword, hbegun, rfl⟩
  · obtain ⟨rfl, rfl⟩ := hrest.of_pure
    exact ⟨[], .nothing, rfl⟩
  · obtain ⟨stmt, hstmt, rfl⟩ := ok_of_map hrest.1
    have hplain : isPlain word.kind = true := by rw [hword]; rfl
    have hstands := hs.begun.consume hbegun hplain
    rw [consume_else hs.parens hword] at hstands
    obtain ⟨ts, lines, m, hother, hpass, hread⟩ :=
      formed_alternative hm (fun l => (hitem l).mono (Nat.sub_le k 1)) hfuel
        (hnext.weaken (Nat.sub_le _ 1))
        hword _ stmt u hstands ⟨hstmt, hrest.2⟩
    refine ⟨⟨l, word :: ts⟩ :: lines, hother, ?_, m, ?_, mayEnd_of_reads hother.inset hread, hread⟩
    · rw [hs.layout] at hholds
      exact hholds
    · refine ⟨not_isIndentation_of_isPlain hplain, rest, hbegun, ?_⟩
      rw [consume_else hs.parens hword]
      exact hpass

theorem formed_branch (hm : Moves item) (hitem : ∀ l, FormedLine limit l k (Statement limit l) item)
    {bound : Nat} (hbound : bound ≠ 0) (fuel : Nat) :
    Formed limit l k (Branch limit l) (branch bound item fuel) := by
  induction fuel with
  | zero => exact fun _ _ _ _ h => nomatch h.1
  | succ fuel ih =>
    have hbody := hm.block bound
    have hother := hm.otherwise (hm.branch bound fuel) bound
    refine Formed.bind (spelled_expression limit bound) (moves_expression bound)
      (fun _ => (moves_expect _ _).bind fun _ => hbody.bind fun _ => hother.bind fun _ => moves_pure _)
      (fun _ _ h => h.balanced) fun condition ts hcondition => ?_
    refine Formed.expect rfl fun colon hcolon => ?_
    intro s stmt u hs h
    obtain ⟨body, t, hblock, hrest⟩ := h.of_bind hbody fun _ => hother.bind fun _ => moves_pure _
    obtain ⟨other, v, hotherwise, hpure⟩ := hrest.of_bind hother fun _ => moves_pure _
    obtain ⟨rfl, rfl⟩ := hpure.of_pure
    have hitem' : ∀ l, FormedLine limit l (k - 1) (Statement limit l) item :=
      fun l => (hitem l).mono (Nat.sub_le k 1)
    obtain ⟨_, inner, m, ⟨rfl, hbody⟩, rfl, hread⟩ := formed_block hm hitem' hbound s body t hs hblock
    obtain ⟨lines, hother, hread'⟩ := formed_otherwise hm hitem' hbound (hm.branch bound fuel)
      (ih.weaken (by omega))
      (hs.reads hbody.proper hread) hotherwise
    refine ⟨[], inner ++ lines, _, ?_, rfl, hread.trans hread'⟩
    simpa using Branch.intro hcondition hcolon hbody hother

theorem formed_loop (hm : Moves item) (hitem : ∀ l, FormedLine limit l k (Statement limit l) item)
    {fuel : Nat} (hfuel : fuel ≠ 0) {word : Token} (hword : word.kind = .whileWord) :
    Formed limit l k (fun stmt ts lines => Statement limit l stmt (⟨l, word :: ts⟩ :: lines))
      (loop fuel item) := by
  have hbody := hm.block fuel
  refine Formed.bind (spelled_expression limit fuel) (moves_expression fuel)
    (fun _ => (moves_expect _ _).bind fun _ => hbody.bind fun _ => moves_pure _)
    (fun _ _ h => h.balanced) fun condition ts hcondition => ?_
  refine Formed.expect rfl fun colon hcolon => ?_
  refine (formed_block hm (fun l => (hitem l).mono (Nat.sub_le k 1)) hfuel).bind_pure ?_
  rintro body _ lines ⟨rfl, hblock⟩
  exact .loop hword hcondition hcolon hblock

theorem formed_statementFrom (hm : Moves item)
    (hitem : ∀ l, FormedLine limit l k (Statement limit l) item) {fuel : Nat} (hfuel : fuel ≠ 0)
    {t : Token} (ht : introduces t.kind = true) :
    Formed limit l k (fun stmt ts lines => Statement limit l stmt (⟨l, t :: ts⟩ :: lines))
      (statementFrom fuel item t) := by
  unfold statementFrom
  split
  · rename_i hkind
    exact formed_classDef hm hitem hfuel hkind
  · rename_i hkind
    exact (formed_routine hm hitem hfuel "function").bind_pure fun r ts lines h => .define hkind h
  · rename_i hkind
    exact (formed_branch hm hitem hfuel fuel).mono fun stmt ts lines h => .branch hkind h
  · rename_i hkind
    have hprint : Spelled limit (fun stmt ts => Statement limit l stmt [⟨l, t :: ts⟩])
        (Stmt.print <$> expression fuel) :=
      (spelled_expression limit fuel).map (moves_expression fuel) fun e ts h => .print hkind h
    exact .of_spelled hprint fun stmt ts h => h
  · rename_i hkind
    exact .of_spelled (spelled_givenBack limit fuel t) fun stmt ts h => .giveBack hkind h
  · rename_i hkind
    exact formed_loop hm hitem hfuel hkind
  · rename_i hkind
    refine (formed_block hm hitem hfuel).bind_pure ?_
    rintro body _ lines ⟨rfl, hblock⟩
    exact .block hkind hblock
  · have hkind : t.kind = .setWord := by
      revert ht
      cases hk : t.kind <;> simp_all [introduces]
    exact .of_spelled (spelled_assignment limit fuel) fun stmt ts h => .simple (.present hkind) h

theorem formed_statement (hm : Moves item)
    (hitem : ∀ l, FormedLine limit l (k - 1) (Statement limit l) item) {fuel : Nat} (hfuel : fuel ≠ 0) :
    Formed limit l k (fun stmt ts lines => Statement limit l stmt (⟨l, ts⟩ :: lines))
      (statement fuel item) := by
  refine Formed.accept? (fun _ => isPlain_of_introduces) ?_ fun t ht => ?_
  · exact .of_spelled (spelled_assignment limit fuel) fun stmt ts h => .simple .absent h
  · exact formed_statementFrom hm hitem hfuel ht

theorem formed_statementLine (hm : Moves item)
    (hitem : ∀ l, FormedLine limit l (k - 1) (Statement limit l) item) {fuel : Nat} (hfuel : fuel ≠ 0) :
    FormedLine limit l k (Statement limit l) (statementLine fuel item) := by
  intro s stmt u hs _ h
  have hstatement := hm.statement fuel
  obtain ⟨⟨⟩, t, hbegin, hrest⟩ := h.of_bind moves_beginLine fun _ =>
    hstatement.bind fun _ => moves_endStatement.bind fun _ => moves_pure _
  obtain ⟨rfl, hholds⟩ := hbegin.of_beginLine
  obtain ⟨stmt', v, hstmt, hrest⟩ := hrest.of_bind hstatement fun _ =>
    moves_endStatement.bind fun _ => moves_pure _
  obtain ⟨⟨⟩, w, hend, hpure⟩ := hrest.of_bind moves_endStatement fun _ => moves_pure _
  obtain ⟨rfl, rfl⟩ := hpure.of_pure
  have hbreak := hend.mayEnd
  have hw := hend.of_endStatement
  subst hw
  obtain ⟨ts, lines, m, hform, hpass, hread⟩ :=
    formed_statement hm hitem hfuel s.begun stmt' w hs.begun hstmt
  rw [hs.layout] at hholds
  refine ⟨⟨l, ts⟩ :: lines, hform, hholds, m, hpass, ?_, hread⟩
  rcases hform.eq_nil_or_inset with rfl | hinset
  · cases hread
    exact hbreak
  · exact mayEnd_of_reads hinset hread

end Statements

/-- A line that is read without a report is a statement. -/
theorem formed_declaration (limit fuel : Nat) (l : Layout) :
    FormedLine limit l fuel (Statement limit l) (declaration fuel) := by
  induction fuel generalizing l with
  | zero =>
    intro s _ _ hs hline
    have hnil := List.length_eq_zero_iff.1 (Nat.le_zero.1 hs.length)
    exact absurd hnil (rest_ne_nil_of_lineRun hline)
  | succ fuel ih =>
    intro s stmt u hs hline h
    have hm := moves_declaration fuel
    exact formed_statementLine (k := fuel + 1) hm ih (Nat.succ_ne_zero fuel) s stmt u hs hline
      (Yields.of_recovering (hm.statementLine (fuel + 1)) h)

/-- What is read without a report is spelled by lines, and the reader goes over these lines. -/
theorem reads_of_read {argumentLimit : Nat} {stream : Token.Stream}
    (h : (Program.read argumentLimit stream).reports = []) :
    ∃ lines u, Grammar.Statements argumentLimit .top (Program.read argumentLimit stream).statements lines ∧
      (Cursor.start argumentLimit stream).Reads MayEnd lines u ∧ ∀ t ∈ u.rest, t.isIndentation = true := by
  obtain ⟨statements, s, hprogram, hread, hlead, hend⟩ := program_ends argumentLimit stream
  rw [hread] at h ⊢
  have hstart : Stands argumentLimit .top stream.tokens.length (.start argumentLimit stream) :=
    ⟨rfl, rfl, rfl, Nat.le_refl _⟩
  obtain ⟨lines, hstatements, hreads, -⟩ := formed_items (R := Statement argumentLimit .top)
    ((moves_declaration stream.tokens.length).map some) (fun _ _ h => h.proper) Statements.nil
    (fun _ _ _ _ h hs => Statements.cons h hs) (formed_declaration argumentLimit _ .top).some
    stream.tokens.length hstart ⟨hprogram, h⟩
  exact ⟨lines, s, hstatements, hreads, hend⟩

/-- What is read without a report is spelled by lines, and the text is these lines. -/
theorem laid_of_read {argumentLimit : Nat} {stream : Token.Stream}
    (h : (Program.read argumentLimit stream).reports = []) :
    ∃ lines, Grammar.Statements argumentLimit .top (Program.read argumentLimit stream).statements lines ∧
      Grammar.Laid lines stream.tokens := by
  obtain ⟨lines, u, hstatements, hreads, hend⟩ := reads_of_read h
  exact ⟨lines, hstatements, hreads.laid hstatements.proper rfl hend⟩

/-- **What is read without a report is a program.**  The statements are spelled by lines, grouped by
precedence and blocks; the lines are the text, each behind the indentation that its blocks demand; and the
real tokens of the text are those of the lines, every one of them once and in order. -/
theorem read_sound {argumentLimit : Nat} {stream : Token.Stream}
    (h : (Program.read argumentLimit stream).reports = []) :
    ∃ lines, Grammar.Statements argumentLimit .top (Program.read argumentLimit stream).statements lines ∧
      Grammar.Laid lines stream.tokens ∧
      stream.tokens.filter (fun t => !t.isIndentation) = lines.flatMap Grammar.Line.tokens := by
  obtain ⟨lines, hstatements, hlaid⟩ := laid_of_read h
  exact ⟨lines, hstatements, hlaid, hlaid.filter⟩

/-- A branch with blocks of different indentation; an expression in the first goes over two lines. -/
def branchStream : Token.Stream :=
  ⟨[⟨.ifWord, "if", .null, 1⟩, ⟨.identifier, "a", .null, 1⟩, ⟨.colon, ":", .null, 1⟩,
    ⟨.tab, "\t", .null, 2⟩, ⟨.printWord, "print", .null, 2⟩, ⟨.leftParen, "(", .null, 2⟩,
    ⟨.identifier, "b", .null, 2⟩,
    ⟨.space, " ", .null, 3⟩, ⟨.plus, "+", .null, 3⟩, ⟨.identifier, "c", .null, 3⟩,
    ⟨.rightParen, ")", .null, 3⟩,
    ⟨.elseWord, "else", .null, 4⟩, ⟨.colon, ":", .null, 4⟩,
    ⟨.space, " ", .null, 5⟩, ⟨.space, " ", .null, 5⟩, ⟨.setWord, "set", .null, 5⟩,
    ⟨.identifier, "a", .null, 5⟩, ⟨.toWord, "to", .null, 5⟩, ⟨.identifier, "c", .null, 5⟩,
    ⟨.tab, "\t", .null, 6⟩], 7⟩

theorem read_sound_branchStream :
    (Program.read 255 branchStream).statements.length = 1 ∧
    (Program.read 255 branchStream).reports = [] ∧
    ∃ lines, Grammar.Statements 255 .top (Program.read 255 branchStream).statements lines ∧
      Grammar.Laid lines branchStream.tokens ∧
      branchStream.tokens.filter (fun t => !t.isIndentation) = lines.flatMap Grammar.Line.tokens := by
  have hreports : (Program.read 255 branchStream).reports = [] := List.isEmpty_iff.1 (by decide +kernel)
  exact ⟨by decide +kernel, hreports, read_sound hreports⟩

end Offside.Reading
