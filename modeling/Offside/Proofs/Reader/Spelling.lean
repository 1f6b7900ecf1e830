import Offside.Proofs.Reader.Grammar

/-!
# Spellings

What the grammar says about the tokens of a line, before any of them is read: they are real tokens, their
parentheses match, and the first of them is one that a line may begin with.

* `Cursor.parensOver` — the parentheses that are open behind some tokens;
* `Grammar.Balanced` — real tokens that leave open as many parentheses as they found;
* `Grammar.Line.Proper` — a balanced line that begins as lines do;
* `Grammar.Statements.proper` — every line of a program is one.
-/

set_option autoImplicit false

namespace Offside

open Token (Kind)

/-- Open parentheses behind some tokens. -/
def Cursor.parensOver (n : Nat) (ts : List Token) : Nat :=
  ts.foldl (fun n t => parensAfter n t.kind) n

namespace Grammar

open Reading
open Cursor (parensOver)

/-! ## Matching parentheses -/

/-- Kinds of real tokens other than parentheses. -/
def isPlain (k : Kind) : Bool :=
  !k.isIndentation && k != .leftParen && k != .rightParen

theorem not_isIndentation_of_isPlain {k : Kind} (h : isPlain k = true) : k.isIndentation = false := by
  revert h
  cases k <;> decide

/-- The tokens are real and leave open as many parentheses as they found. -/
structure Balanced (ts : List Token) : Prop where
  real : ∀ t ∈ ts, t.isIndentation = false
  parens : ∀ n, parensOver n ts = n

namespace Balanced

variable {ts us : List Token} {t : Token}

theorem nil : Balanced [] :=
  ⟨by simp, fun _ => rfl⟩

theorem append (h : Balanced ts) (h' : Balanced us) : Balanced (ts ++ us) := by
  refine ⟨?_, ?_⟩
  · intro t ht
    rcases List.mem_append.1 ht with ht | ht
    · exact h.real t ht
    · exact h'.real t ht
  · intro n
    show (ts ++ us).foldl _ n = n
    rw [List.foldl_append]
    exact (congrArg (us.foldl _) (h.parens n)).trans (h'.parens n)

theorem cons (ht : isPlain t.kind = true) (h : Balanced ts) : Balanced (t :: ts) := by
  refine ⟨?_, ?_⟩
  · intro u hu
    rcases List.mem_cons.1 hu with rfl | hu
    · simp only [isPlain, Bool.and_eq_true, Bool.not_eq_true'] at ht
      exact ht.1.1
    · exact h.real u hu
  · intro n
    have hn : Cursor.parensAfter n t.kind = n := by
      revert ht
      cases t.kind <;> simp [isPlain, Cursor.parensAfter]
    show ts.foldl _ (Cursor.parensAfter n t.kind) = n
    rw [hn]
    exact h.parens n

theorem single (ht : isPlain t.kind = true) : Balanced [t] :=
  nil.cons ht

theorem enclosed {opening closing : Token} (ho : opening.kind = .leftParen) (h : Balanced ts)
    (hc : closing.kind = .rightParen) : Balanced (opening :: (ts ++ [closing])) := by
  refine ⟨?_, ?_⟩
  · intro u hu
    rcases List.mem_cons.1 hu with rfl | hu
    · simp [Token.isIndentation, ho, Kind.isIndentation]
    · rcases List.mem_append.1 hu with hu | hu
      · exact h.real u hu
      · rw [List.mem_singleton.1 hu]
        simp [Token.isIndentation, hc, Kind.isIndentation]
  · intro n
    have hts : ts.foldl (fun n t => Cursor.parensAfter n t.kind) (n + 1) = n + 1 := h.parens (n + 1)
    show (ts ++ [closing]).foldl _ (Cursor.parensAfter n opening.kind) = n
    rw [List.foldl_append, ho]
    show Cursor.parensAfter (ts.foldl _ (n + 1)) closing.kind = n
    rw [hts, hc]
    rfl

end Balanced

theorem isPlain_of_isOperator {tier : Tier} {k : Kind} (h : tier.isOperator k = true) : isPlain k = true := by
  revert h
  cases tier <;> cases k <;> decide

theorem isPlain_of_isSign {k : Kind} (h : isSign k = true) : isPlain k = true := by
  revert h
  cases k <;> decide

theorem isPlain_of_introduces {k : Kind} (h : introduces k = true) : isPlain k = true := by
  revert h
  cases k <;> decide

theorem isPlain_of_literalOf? {t : Token} {value : Literal} (h : literalOf? t = some value) :
    isPlain t.kind = true := by
  revert h
  unfold literalOf?
  cases t.kind <;> simp [isPlain, Kind.isIndentation]

mutual

theorem Spells.balanced {limit : Nat} {T : List Tier} {e : Expr Unit} {ts : List Token} :
    Spells limit T e ts → Balanced ts
  | .tighter h => h.balanced
  | .join h hop h' => h.balanced.append (h'.balanced.cons (isPlain_of_isOperator hop))
  | .sign hop h => h.balanced.cons (isPlain_of_isSign hop)
  | .operand h => h.balanced

theorem Operand.balanced {limit : Nat} {e : Expr Unit} {ts : List Token} :
    Operand limit e ts → Balanced ts
  | .literal h => .single (isPlain_of_literalOf? h)
  | .name h => .single (by rw [h]; rfl)
  | .thisRef h => .single (by rw [h]; rfl)
  | .superRef h hd hm =>
    ((Balanced.single (by rw [hm]; rfl)).cons (by rw [hd]; rfl)).cons (by rw [h]; rfl)
  | .group ho h hc => h.balanced.enclosed ho hc
  | .getField h hd hf => h.balanced.append ((Balanced.single (by rw [hf]; rfl)).cons (by rw [hd]; rfl))
  | .call h ho hl _ hc => h.balanced.append (hl.balanced.enclosed ho hc)

theorem Listed.balanced {limit : Nat} {es : List (Expr Unit)} {ts : List Token} :
    Listed limit es ts → Balanced ts
  | .none => .nil
  | .one h => h.balanced
  | .more h hc hl _ => h.balanced.append (hl.balanced.cons (by rw [hc]; rfl))

end

theorem Simple.balanced {limit : Nat} {s : Stmt Unit} {ts : List Token} (h : Simple limit s ts) :
    Balanced ts := by
  cases h with
  | evaluate h => exact h.balanced
  | assign hn hm h => exact (h.balanced.cons (by rw [hm]; rfl)).cons (by rw [hn]; rfl)
  | setField ho hd hf hm h =>
    have hvalue := (h.balanced.cons (by rw [hm]; rfl)).cons (t := _) (by rw [hf]; rfl)
    exact ho.balanced.append (hvalue.cons (by rw [hd]; rfl))

theorem GivenBack.balanced {limit : Nat} {word : Token} {s : Stmt Unit} {ts : List Token}
    (h : GivenBack limit word s ts) : Balanced ts := by
  cases h with
  | nothing => exact .nil
  | value h _ => exact h.balanced

theorem Params.balanced {names ts : List Token} (h : Params names ts) : Balanced ts := by
  induction h with
  | none => exact .nil
  | one hn => exact .single (by rw [hn]; rfl)
  | more hn hc _ _ ih => exact (ih.cons (by rw [hc]; rfl)).cons (by rw [hn]; rfl)

theorem ReturnType.balanced {type : Option Token} {ts : List Token} (h : ReturnType type ts) :
    Balanced ts := by
  cases h with
  | none => exact .nil
  | some hc ht =>
    refine (Balanced.single ?_).cons (by rw [hc]; rfl)
    rcases ht with ht | ht <;> (rw [ht]; rfl)

theorem Superclass.balanced {parent : Option (Token × Unit)} {ts : List Token}
    (h : Superclass parent ts) : Balanced ts := by
  cases h with
  | none => exact .nil
  | some hc hn => exact (Balanced.single (by rw [hn]; rfl)).cons (by rw [hc]; rfl)

/-! ## Expressions without operators -/

/-- An operator with its operands. -/
def isOperation : Expr Unit → Bool
  | .unary .. | .binary .. | .logical .. => true
  | _ => false

theorem isOperation_join (tier : Tier) (left right : Expr Unit) (operator : Token) :
    isOperation (tier.join left operator right) = true := by
  cases tier <;> rfl

/-- What is no operator with its operands is an operand, whatever the tiers. -/
theorem Spells.operand_of {limit : Nat} {T : List Tier} {e : Expr Unit} {ts : List Token}
    (he : isOperation e = false) : Spells limit T e ts → Operand limit e ts
  | .tighter h => h.operand_of he
  | .join _ _ _ => by
    rw [isOperation_join] at he
    cases he
  | .sign _ _ => nomatch he
  | .operand h => h

/-! ## First tokens -/

/-- First tokens of expressions. -/
def startsExpression (k : Kind) : Bool :=
  isSign k || startsPrimary k

/-- First tokens of statements. -/
def startsStatement (k : Kind) : Bool :=
  startsExpression k || introduces k

/-- First tokens of lines: those of statements, and the word in front of an alternative. -/
def startsLine (k : Kind) : Bool :=
  startsStatement k || k == .elseWord

theorem startsPrimary_of_literalOf? {t : Token} {value : Literal} (h : literalOf? t = some value) :
    startsPrimary t.kind = true := by
  revert h
  unfold literalOf?
  cases t.kind <;> simp [startsPrimary]

theorem Operand.head {limit : Nat} {e : Expr Unit} {ts : List Token} :
    Operand limit e ts → ∃ t us, ts = t :: us ∧ startsPrimary t.kind = true
  | .literal h => ⟨_, _, rfl, startsPrimary_of_literalOf? h⟩
  | .name h => ⟨_, _, rfl, by rw [h]; rfl⟩
  | .thisRef h => ⟨_, _, rfl, by rw [h]; rfl⟩
  | .superRef h _ _ => ⟨_, _, rfl, by rw [h]; rfl⟩
  | .group ho _ _ => ⟨_, _, rfl, by rw [ho]; rfl⟩
  | .getField h _ _ => by
    obtain ⟨t, us, rfl, ht⟩ := h.head
    exact ⟨t, _, rfl, ht⟩
  | .call h _ _ _ _ => by
    obtain ⟨t, us, rfl, ht⟩ := h.head
    exact ⟨t, _, rfl, ht⟩

theorem Spells.head {limit : Nat} {T : List Tier} {e : Expr Unit} {ts : List Token} :
    Spells limit T e ts → ∃ t us, ts = t :: us ∧ startsExpression t.kind = true
  | .tighter h => h.head
  | .join h _ _ => by
    obtain ⟨t, us, rfl, ht⟩ := h.head
    exact ⟨t, _, rfl, ht⟩
  | .sign hop _ => ⟨_, _, rfl, by unfold startsExpression; rw [hop]; rfl⟩
  | .operand h => by
    obtain ⟨t, us, rfl, ht⟩ := h.head
    exact ⟨t, us, rfl, by unfold startsExpression; rw [ht, Bool.or_true]⟩

theorem Simple.head {limit : Nat} {s : Stmt Unit} {ts : List Token} (h : Simple limit s ts) :
    ∃ t us, ts = t :: us ∧ startsExpression t.kind = true := by
  cases h with
  | evaluate h => exact h.head
  | assign hn _ _ => exact ⟨_, _, rfl, by rw [hn]; rfl⟩
  | setField ho _ _ _ _ =>
    obtain ⟨t, us, rfl, ht⟩ := ho.head
    exact ⟨t, _, rfl, by unfold startsExpression; rw [ht, Bool.or_true]⟩

/-- A line may begin with a token that begins a statement. -/
theorem startsLine_of_startsStatement {k : Kind} (h : startsStatement k = true) :
    startsLine k = true := by
  unfold startsLine
  rw [h, Bool.true_or]

theorem startsStatement_of_startsExpression {k : Kind} (h : startsExpression k = true) :
    startsStatement k = true := by
  unfold startsStatement
  rw [h, Bool.true_or]

/-! ## Lines -/

/-- A balanced line that begins as lines do. -/
structure Line.Proper (line : Line) : Prop where
  balanced : Balanced line.tokens
  head : ∃ t ts, line.tokens = t :: ts ∧ startsLine t.kind = true

/-- A line that begins with a keyword of a statement. -/
theorem Line.Proper.of_word {l : Layout} {word : Token} {ts : List Token}
    (hw : introduces word.kind = true) (h : Balanced ts) : Line.Proper ⟨l, word :: ts⟩ := by
  refine ⟨h.cons (isPlain_of_introduces hw), word, ts, rfl, ?_⟩
  unfold startsLine startsStatement
  rw [hw, Bool.or_true, Bool.true_or]

theorem Line.Proper.of_expression {l : Layout} {set ts : List Token} (hset : SetWord set)
    (h : Balanced ts) (hhead : ∃ t us, ts = t :: us ∧ startsExpression t.kind = true) :
    Line.Proper ⟨l, set ++ ts⟩ := by
  cases hset with
  | absent =>
    obtain ⟨t, us, rfl, ht⟩ := hhead
    exact ⟨h, t, us, rfl, startsLine_of_startsStatement (startsStatement_of_startsExpression ht)⟩
  | present hw => exact .of_word (by rw [hw]; rfl) h

theorem Line.Proper.of_else {l : Layout} {word : Token} {ts : List Token} (hw : word.kind = .elseWord)
    (h : Balanced ts) : Line.Proper ⟨l, word :: ts⟩ :=
  ⟨h.cons (by rw [hw]; rfl), word, ts, rfl, by rw [hw]; rfl⟩

mutual

theorem Statement.proper {limit : Nat} {l : Layout} {s : Stmt Unit} {lines : List Line} :
    Statement limit l s lines → ∀ line ∈ lines, line.Proper
  | .simple hset h => by
    simpa using Line.Proper.of_expression hset h.balanced h.head
  | .print hw h => by
    simpa using Line.Proper.of_word (by rw [hw]; rfl) h.balanced
  | .giveBack hw h => by
    simpa using Line.Proper.of_word (by rw [hw]; rfl) h.balanced
  | .block hc h =>
    List.forall_mem_cons.2 ⟨.of_word (by rw [hc]; rfl) .nil, h.proper⟩
  | .loop hw h hc hb =>
    List.forall_mem_cons.2
      ⟨.of_word (by rw [hw]; rfl) (h.balanced.append (.single (by rw [hc]; rfl))), hb.proper⟩
  | .branch hw h => by
    obtain ⟨hb, hlines⟩ := h.proper
    exact List.forall_mem_cons.2 ⟨.of_word (by rw [hw]; rfl) hb, hlines⟩
  | .define hw h => by
    obtain ⟨hb, hlines⟩ := h.proper
    exact List.forall_mem_cons.2 ⟨.of_word (by rw [hw]; rfl) hb, hlines⟩
  | .classDef hw hn hs hc _ hm _ => by
    have hb := (hs.balanced.append (.single (by rw [hc]; rfl))).cons (t := _) (by rw [hn]; rfl)
    exact List.forall_mem_cons.2 ⟨.of_word (by rw [hw]; rfl) hb, hm.proper⟩

theorem Branch.proper {limit : Nat} {l : Layout} {s : Stmt Unit} {ts : List Token} {lines : List Line} :
    Branch limit l s ts lines → Balanced ts ∧ ∀ line ∈ lines, line.Proper
  | .intro h hc hb ho =>
    ⟨h.balanced.append (.single (by rw [hc]; rfl)), List.forall_mem_append.2 ⟨hb.proper, ho.proper⟩⟩

theorem Otherwise.proper {limit : Nat} {l : Layout} {other : Option (Stmt Unit)} {lines : List Line} :
    Otherwise limit l other lines → ∀ line ∈ lines, line.Proper
  | .nothing => by simp
  | .block hw hc hb =>
    List.forall_mem_cons.2 ⟨.of_else hw (.single (by rw [hc]; rfl)), hb.proper⟩
  | .branch hw hw' hn => by
    obtain ⟨hts, hlines⟩ := hn.proper
    exact List.forall_mem_cons.2 ⟨.of_else hw (hts.cons (by rw [hw']; rfl)), hlines⟩

theorem Function.proper {limit : Nat} {l : Layout} {r : Routine Unit} {ts : List Token}
    {lines : List Line} :
    Function limit l r ts lines → Balanced ts ∧ ∀ line ∈ lines, line.Proper
  | .intro hn ho hp _ hc ht hk hb => by
    refine ⟨?_, hb.proper⟩
    have htail := ht.balanced.append (.single (by rw [hk]; rfl))
    have hparams := (hp.balanced.enclosed ho hc).append htail
    simpa using hparams.cons (by rw [hn]; rfl)

theorem Block.proper {limit : Nat} {l : Layout} {ss : List (Stmt Unit)} {lines : List Line} :
    Block limit l ss lines → ∀ line ∈ lines, line.Proper
  | .intro _ h _ => h.proper

theorem Statements.proper {limit : Nat} {l : Layout} {ss : List (Stmt Unit)} {lines : List Line} :
    Statements limit l ss lines → ∀ line ∈ lines, line.Proper
  | .nil => by simp
  | .cons h hs => List.forall_mem_append.2 ⟨h.proper, hs.proper⟩

theorem Methods.proper {limit : Nat} {l : Layout} {rs : List (Routine Unit)} {lines : List Line} :
    Methods limit l rs lines → ∀ line ∈ lines, line.Proper
  | .nil => by simp
  | .cons hw h hs => by
    obtain ⟨hb, hlines⟩ := h.proper
    exact List.forall_mem_cons.2 ⟨.of_word (by rw [hw]; rfl) hb, List.forall_mem_append.2 ⟨hlines, hs.proper⟩⟩

end

/-! ## First lines -/

theorem startsStatement_of_introduces {k : Kind} (h : introduces k = true) : startsStatement k = true := by
  unfold startsStatement
  rw [h, Bool.or_true]

/-- A statement begins on a line of its block, with a token that begins statements. -/
theorem Statement.first {limit : Nat} {l : Layout} {s : Stmt Unit} {lines : List Line}
    (h : Statement limit l s lines) :
    ∃ t ts inner, lines = ⟨l, t :: ts⟩ :: inner ∧ startsStatement t.kind = true := by
  cases h with
  | simple hset h =>
    cases hset with
    | absent =>
      obtain ⟨t, us, rfl, ht⟩ := h.head
      exact ⟨t, us, [], rfl, startsStatement_of_startsExpression ht⟩
    | present hw => exact ⟨_, _, _, rfl, startsStatement_of_introduces (by rw [hw]; rfl)⟩
  | print hw _ => exact ⟨_, _, _, rfl, startsStatement_of_introduces (by rw [hw]; rfl)⟩
  | giveBack hw _ => exact ⟨_, _, _, rfl, startsStatement_of_introduces (by rw [hw]; rfl)⟩
  | block hw _ => exact ⟨_, _, _, rfl, startsStatement_of_introduces (by rw [hw]; rfl)⟩
  | loop hw _ _ _ => exact ⟨_, _, _, rfl, startsStatement_of_introduces (by rw [hw]; rfl)⟩
  | branch hw _ => exact ⟨_, _, _, rfl, startsStatement_of_introduces (by rw [hw]; rfl)⟩
  | define hw _ => exact ⟨_, _, _, rfl, startsStatement_of_introduces (by rw [hw]; rfl)⟩
  | classDef hw _ _ _ _ _ _ => exact ⟨_, _, _, rfl, startsStatement_of_introduces (by rw [hw]; rfl)⟩

theorem Statements.first {limit : Nat} {l : Layout} {ss : List (Stmt Unit)} {lines : List Line}
    (h : Statements limit l ss lines) (hne : ss ≠ []) :
    ∃ t ts inner, lines = ⟨l, t :: ts⟩ :: inner ∧ startsStatement t.kind = true := by
  cases h with
  | nil => exact absurd rfl hne
  | cons h _ =>
    obtain ⟨t, ts, inner, rfl, ht⟩ := h.first
    exact ⟨t, ts, _, rfl, ht⟩

theorem Methods.first {limit : Nat} {l : Layout} {rs : List (Routine Unit)} {lines : List Line}
    (h : Methods limit l rs lines) (hne : rs ≠ []) :
    ∃ t ts inner, lines = ⟨l, t :: ts⟩ :: inner ∧ t.kind = .functionWord := by
  cases h with
  | nil => exact absurd rfl hne
  | cons hw _ _ => exact ⟨_, _, _, rfl, hw⟩

/-- There is a first line, and it is indented. -/
def Inset (lines : List Line) : Prop :=
  ∃ line more, lines = line :: more ∧ 0 < line.layout.width

theorem Inset.append {lines : List Line} (h : Inset lines) (more : List Line) : Inset (lines ++ more) := by
  obtain ⟨line, rest, rfl, hwidth⟩ := h
  exact ⟨line, rest ++ more, rfl, hwidth⟩

theorem Block.inset {limit : Nat} {l : Layout} {body : List (Stmt Unit)} {lines : List Line}
    (h : Block limit l body lines) : Inset lines := by
  cases h with
  | intro ho hs hne =>
    obtain ⟨t, ts, inner, rfl, -⟩ := hs.first hne
    exact ⟨_, inner, rfl, Nat.zero_lt_of_lt ho.width_lt⟩

theorem Branch.inset {limit : Nat} {l : Layout} {s : Stmt Unit} {ts : List Token} {lines : List Line}
    (h : Branch limit l s ts lines) : Inset lines := by
  cases h with
  | intro _ _ hb _ => exact hb.inset.append _

theorem Function.inset {limit : Nat} {l : Layout} {r : Routine Unit} {ts : List Token} {lines : List Line}
    (h : Function limit l r ts lines) : Inset lines := by
  cases h with
  | intro _ _ _ _ _ _ _ hb => exact hb.inset

theorem Otherwise.inset {limit : Nat} {l : Layout} {s : Stmt Unit} {line : Line} {lines : List Line}
    (h : Otherwise limit l (some s) (line :: lines)) : Inset lines := by
  cases h with
  | block _ _ hb => exact hb.inset
  | branch _ _ hn => exact hn.inset

/-- A statement is a single line, or its other lines are those of its blocks. -/
theorem Statement.eq_nil_or_inset {limit : Nat} {l : Layout} {s : Stmt Unit} {line : Line} {lines : List Line}
    (h : Statement limit l s (line :: lines)) : lines = [] ∨ Inset lines := by
  cases h with
  | simple | print | giveBack => exact Or.inl rfl
  | block _ hb => exact Or.inr hb.inset
  | loop _ _ _ hb => exact Or.inr hb.inset
  | branch _ hb => exact Or.inr hb.inset
  | define _ hr => exact Or.inr hr.inset
  | classDef _ _ _ _ ho hm hne =>
    obtain ⟨t, ts, inner, rfl, -⟩ := hm.first hne
    exact Or.inr ⟨_, inner, rfl, Nat.zero_lt_of_lt ho.width_lt⟩

end Grammar
end Offside
