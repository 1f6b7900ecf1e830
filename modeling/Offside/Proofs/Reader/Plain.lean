import Offside.Binding
import Offside.Proofs.Reader.Soundness
import Offside.Token.Lexer

/-!
# Programs with plain names

Classes bind `this` and `super` in scopes of their own.  A program cannot bind these names itself, because
they are reserved words: the tokens of a text keep reserved words apart from identifiers, and the grammar
asks for identifiers wherever a name is bound.  It also asks for blocks wherever a statement may be skipped,
so that no name is bound by a statement that need not run.

* `Token.ofWord_of_mem_scan` — the words of a text are of the kind that their spelling asks for;
* `Stmt.Plain` — what a tree says about its names and bodies;
* `Grammar.Statements.plain`, `Program.plain_of_read` — what is read from a text without a report is plain.
-/

set_option autoImplicit false

namespace Offside

open Token (Kind)

/-! ## Words of a text -/

namespace Token

/-- The kinds of words: reserved words and identifiers. -/
def Kind.isWord (k : Kind) : Bool :=
  k == .identifier || Kind.reserved.contains k

/-- A word is of the kind that its spelling asks for. -/
def Worded (t : Token) : Prop :=
  t.kind.isWord = true → Kind.ofWord t.lexeme = t.kind

theorem isWord_of_pairSign? {first second : Char} {k : Kind} (h : Piece.pairSign? first second = some k) :
    k.isWord = false := by
  unfold Piece.pairSign? at h
  split at h <;> first | (cases h; rfl) | cases h

theorem isWord_of_singleSign? {c : Char} {k : Kind} (h : Piece.singleSign? c = some k) :
    k.isWord = false := by
  unfold Piece.singleSign? at h
  split at h <;> first | (cases h; rfl) | cases h

theorem isWord_of_signFrom {c : Char} {cs : List Char} {k : Kind}
    (h : (Piece.signFrom c cs).1.form = .sign k) : k.isWord = false := by
  unfold Piece.signFrom at h
  split at h
  · next hpair =>
    cases h
    obtain ⟨second, -, hk⟩ := Option.bind_eq_some_iff.1 hpair
    exact isWord_of_pairSign? hk
  · split at h
    · next hsingle => cases h; exact isWord_of_singleSign? hsingle
    · cases h

/-- The signs of a text are no words. -/
theorem isWord_of_cut {lineStart : Bool} {c : Char} {cs : List Char} {k : Kind}
    (h : (Piece.cut lineStart c cs).1.form = .sign k) : k.isWord = false := by
  unfold Piece.cut at h
  -- only the last case cuts off a sign; a string is the one form that is not plain from the case itself
  repeat' split at h
  all_goals try (simp only [Piece.run, Piece.numberFrom] at h; cases h)
  · unfold Piece.stringFrom at h
    split at h <;> cases h
  · exact isWord_of_signFrom h

theorem isWord_of_mem_splitFrom {fuel : Nat} {lineStart : Bool} {cs : List Char} {p : Piece} {k : Kind}
    (hp : p ∈ Piece.splitFrom fuel lineStart cs) (h : p.form = .sign k) : k.isWord = false := by
  induction fuel generalizing lineStart cs with
  | zero => cases hp
  | succ fuel ih =>
    cases cs with
    | nil => cases hp
    | cons c cs =>
      rcases List.mem_cons.1 hp with rfl | hp
      · exact isWord_of_cut h
      · exact ih hp

theorem mem_of_mem_placed {line : Int} {ps : List Piece} {q : Int × Piece} (h : q ∈ placed line ps) :
    q.2 ∈ ps := by
  induction ps generalizing line with
  | nil => cases h
  | cons p ps ih =>
    rcases List.mem_cons.1 h with rfl | h
    · exact List.mem_cons_self
    · exact List.mem_cons_of_mem p (ih h)

theorem worded_of_ofPiece {line : Int} {p : Piece} {t : Token} (ht : t ∈ ofPiece line p)
    (hsign : ∀ k, p.form = .sign k → k.isWord = false) : t.Worded := by
  intro hword
  unfold ofPiece at ht
  split at ht
  case h_1 =>
    obtain ⟨c, -, rfl⟩ := List.mem_map.1 ht
    unfold ofBlank at hword
    split at hword <;> cases hword
  case h_4 => rw [List.mem_singleton.1 ht]
  case h_5 k hform =>
    rw [List.mem_singleton.1 ht, hsign k hform] at hword
    cases hword
  all_goals
    first
    | (rw [List.mem_singleton.1 ht] at hword; cases hword)
    | cases ht

/-- **Words of a text.**  Every word is of the kind that its spelling asks for. -/
theorem ofWord_of_mem_scan {source : String} {t : Token} (h : t ∈ (scan source).stream.tokens) :
    t.Worded := by
  obtain ⟨q, hq, ht⟩ := List.mem_flatMap.1 h
  exact worded_of_ofPiece ht fun k hk => isWord_of_mem_splitFrom (mem_of_mem_placed hq) hk

end Token

/-! ## Plain trees -/

/-- A name that a program can bind; `this` and `super` are bound by classes alone. -/
def Bindable (name : String) : Prop :=
  name ≠ "this" ∧ name ≠ "super"

theorem Token.Worded.bindable {t : Token} (h : t.Worded) (hk : t.kind = .identifier) :
    Bindable t.lexeme := by
  have hword : Kind.ofWord t.lexeme = .identifier := by
    rw [← hk]
    exact h (by rw [hk]; rfl)
  constructor <;> intro he <;> rw [he] at hword <;> revert hword <;> decide +kernel

theorem Token.Worded.lexeme_thisWord {t : Token} (h : t.Worded) (hk : t.kind = .thisWord) :
    t.lexeme = "this" := by
  have hword : Kind.ofWord t.lexeme = .thisWord := by
    rw [← hk]
    exact h (by rw [hk]; rfl)
  unfold Kind.ofWord at hword
  cases hfind : Kind.reserved.find? fun k => k.label == t.lexeme with
  | none => rw [hfind] at hword; cases hword
  | some k =>
    rw [hfind, Option.getD_some] at hword
    have hlabel := List.find?_some hfind
    rw [hword] at hlabel
    exact (eq_of_beq hlabel).symm

mutual

/-- Every reference to the instance is spelled `this`. -/
def Expr.Plain : Expr Unit → Prop
  | .group inner => inner.Plain
  | .unary _ operand => operand.Plain
  | .binary left _ right => left.Plain ∧ right.Plain
  | .logical left _ right => left.Plain ∧ right.Plain
  | .setField object _ value => object.Plain ∧ value.Plain
  | .getField object _ => object.Plain
  | .call callee _ arguments => callee.Plain ∧ Expr.PlainAll arguments
  | .thisRef keyword _ => keyword.lexeme = "this"
  | .literal _ | .name _ _ | .superRef _ _ _ | .unknown => True

/-- Several plain expressions. -/
def Expr.PlainAll : List (Expr Unit) → Prop
  | [] => True
  | e :: es => e.Plain ∧ Expr.PlainAll es

end

mutual

/-- Every bound name can be bound, and a statement that may be skipped binds none. -/
def Stmt.Plain : Stmt Unit → Prop
  | .block body => Stmt.PlainAll body
  | .define r => Bindable r.name.lexeme ∧ r.Plain
  | .classDef name _ methods => Bindable name.lexeme ∧ Routine.PlainAll methods
  | .evaluate e => e.Plain
  | .branch condition whenTrue none =>
    condition.Plain ∧ Binding.boundName? whenTrue = none ∧ whenTrue.Plain
  | .branch condition whenTrue (some whenFalse) =>
    condition.Plain ∧ (Binding.boundName? whenTrue = none ∧ whenTrue.Plain) ∧
      Binding.boundName? whenFalse = none ∧ whenFalse.Plain
  | .print e => e.Plain
  | .giveBack _ value => ∀ e ∈ value, e.Plain
  | .assign name value _ => Bindable name.lexeme ∧ ∀ e ∈ value, e.Plain
  | .loop condition body => condition.Plain ∧ Binding.boundName? body = none ∧ body.Plain
  | .unknown => True

/-- Several plain statements. -/
def Stmt.PlainAll : List (Stmt Unit) → Prop
  | [] => True
  | s :: ss => s.Plain ∧ Stmt.PlainAll ss

/-- A routine whose parameters can be bound and whose body is plain. -/
def Routine.Plain : Routine Unit → Prop
  | .mk _ params body _ => (∀ t ∈ params, Bindable t.lexeme) ∧ Stmt.PlainAll body

/-- Several plain routines. -/
def Routine.PlainAll : List (Routine Unit) → Prop
  | [] => True
  | r :: rs => r.Plain ∧ Routine.PlainAll rs

end

/-! ## What is spelled with the words of a text is plain -/

namespace Grammar

/-- Tokens whose words are of the kind that their spelling asks for. -/
def Words (ts : List Token) : Prop :=
  ∀ t ∈ ts, t.Worded

theorem words_cons {t : Token} {ts : List Token} : Words (t :: ts) ↔ t.Worded ∧ Words ts :=
  List.forall_mem_cons

theorem words_append {as bs : List Token} : Words (as ++ bs) ↔ Words as ∧ Words bs :=
  List.forall_mem_append

theorem plain_join (tier : Reading.Tier) {left right : Expr Unit} (operator : Token) (hl : left.Plain)
    (hr : right.Plain) : (tier.join left operator right).Plain := by
  cases tier <;> exact ⟨hl, hr⟩

mutual

theorem Spells.plain {limit : Nat} {T : List Reading.Tier} {e : Expr Unit} {ts : List Token}
    (h : Spells limit T e ts) (hw : Words ts) : e.Plain :=
  match h with
  | .tighter h => Spells.plain h hw
  | @Spells.join _ tier _ _ _ operator _ _ hl _ hr => by
    obtain ⟨hwl, hwr⟩ := words_append.1 hw
    obtain ⟨-, hwr⟩ := words_cons.1 hwr
    exact plain_join tier operator (Spells.plain hl hwl) (Spells.plain hr hwr)
  | .sign _ h => by
    obtain ⟨-, hw⟩ := words_cons.1 hw
    have hoperand := Spells.plain h hw
    exact hoperand
  | .operand h => Operand.plain h hw

theorem Operand.plain {limit : Nat} {e : Expr Unit} {ts : List Token} (h : Operand limit e ts)
    (hw : Words ts) : e.Plain :=
  match h with
  | .literal _ => trivial
  | .name _ => trivial
  | .thisRef hk => (words_cons.1 hw).1.lexeme_thisWord hk
  | .superRef _ _ _ => trivial
  | .group _ h _ => by
    obtain ⟨-, hw⟩ := words_cons.1 hw
    obtain ⟨hw, -⟩ := words_append.1 hw
    have hinner := Spells.plain h hw
    exact hinner
  | .getField h _ _ => by
    obtain ⟨hw, -⟩ := words_append.1 hw
    have hobject := Operand.plain h hw
    exact hobject
  | .call h _ hargs _ _ => by
    obtain ⟨hcallee, hw⟩ := words_append.1 hw
    obtain ⟨-, hw⟩ := words_cons.1 hw
    obtain ⟨hw, -⟩ := words_append.1 hw
    exact ⟨Operand.plain h hcallee, Listed.plain hargs hw⟩

theorem Listed.plain {limit : Nat} {es : List (Expr Unit)} {ts : List Token} (h : Listed limit es ts)
    (hw : Words ts) : Expr.PlainAll es :=
  match h with
  | .none => trivial
  | .one h => ⟨Spells.plain h hw, trivial⟩
  | .more h _ hs _ => by
    obtain ⟨hfirst, hw⟩ := words_append.1 hw
    obtain ⟨-, hw⟩ := words_cons.1 hw
    exact ⟨Spells.plain h hfirst, Listed.plain hs hw⟩

end

theorem Simple.plain {limit : Nat} {s : Stmt Unit} {ts : List Token} (h : Simple limit s ts)
    (hw : Words ts) : s.Plain := by
  cases h with
  | evaluate h => exact h.plain hw
  | assign hk _ h =>
    obtain ⟨hname, hw⟩ := words_cons.1 hw
    have hvalue := h.plain (words_cons.1 hw).2
    exact ⟨hname.bindable hk, fun e he => Option.some.inj he ▸ hvalue⟩
  | setField hobject _ _ _ hvalue =>
    obtain ⟨hleft, hw⟩ := words_append.1 hw
    have hright := (words_cons.1 (words_cons.1 (words_cons.1 hw).2).2).2
    exact ⟨hobject.plain hleft, hvalue.plain hright⟩

theorem GivenBack.plain {limit : Nat} {word : Token} {s : Stmt Unit} {ts : List Token}
    (h : GivenBack limit word s ts) (hw : Words ts) : s.Plain := by
  cases h with
  | nothing => intro e he; cases he
  | value h _ =>
    have hvalue := h.plain hw
    exact fun e he => Option.some.inj he ▸ hvalue

theorem Params.bindable {names ts : List Token} (h : Params names ts) (hw : Words ts) :
    ∀ t ∈ names, Bindable t.lexeme := by
  induction h with
  | none => intro t ht; cases ht
  | one hk =>
    have hname := (words_cons.1 hw).1.bindable hk
    exact fun t ht => List.mem_singleton.1 ht ▸ hname
  | more hk _ _ _ ih =>
    obtain ⟨hname, hw⟩ := words_cons.1 hw
    exact List.forall_mem_cons.2 ⟨hname.bindable hk, ih (words_cons.1 hw).2⟩

/-- The tokens of lines are words of a text. -/
def WordedLines (lines : List Line) : Prop :=
  ∀ line ∈ lines, Words line.tokens

theorem wordedLines_cons {line : Line} {lines : List Line} :
    WordedLines (line :: lines) ↔ Words line.tokens ∧ WordedLines lines :=
  List.forall_mem_cons

theorem wordedLines_append {as bs : List Line} :
    WordedLines (as ++ bs) ↔ WordedLines as ∧ WordedLines bs :=
  List.forall_mem_append

theorem Branch.boundName? {limit : Nat} {l : Layout} {s : Stmt Unit} {ts : List Token}
    {inner : List Line} (h : Branch limit l s ts inner) : Binding.boundName? s = none := by
  cases h
  rfl

mutual

theorem Statement.plain {limit : Nat} {l : Layout} {s : Stmt Unit} {lines : List Line}
    (h : Statement limit l s lines) (hw : WordedLines lines) : s.Plain :=
  match h with
  | .simple _ h => by
    obtain ⟨hw, -⟩ := wordedLines_cons.1 hw
    obtain ⟨-, hw⟩ := words_append.1 hw
    exact h.plain hw
  | .print _ h => by
    obtain ⟨hw, -⟩ := wordedLines_cons.1 hw
    obtain ⟨-, hw⟩ := words_cons.1 hw
    exact h.plain hw
  | .giveBack _ h => by
    obtain ⟨hw, -⟩ := wordedLines_cons.1 hw
    obtain ⟨-, hw⟩ := words_cons.1 hw
    exact h.plain hw
  | .block _ h => by
    obtain ⟨-, hinner⟩ := wordedLines_cons.1 hw
    exact Block.plain h hinner
  | .loop _ hc _ hb => by
    obtain ⟨hline, hinner⟩ := wordedLines_cons.1 hw
    obtain ⟨-, hline⟩ := words_cons.1 hline
    obtain ⟨hcondition, -⟩ := words_append.1 hline
    exact ⟨hc.plain hcondition, rfl, Block.plain hb hinner⟩
  | .branch _ h => by
    obtain ⟨hline, hinner⟩ := wordedLines_cons.1 hw
    obtain ⟨-, hline⟩ := words_cons.1 hline
    exact Branch.plain h hline hinner
  | .define _ h => by
    obtain ⟨hline, hinner⟩ := wordedLines_cons.1 hw
    obtain ⟨-, hline⟩ := words_cons.1 hline
    exact Function.plain h hline hinner
  | .classDef _ hk _ _ _ h _ => by
    obtain ⟨hline, hinner⟩ := wordedLines_cons.1 hw
    obtain ⟨-, hline⟩ := words_cons.1 hline
    obtain ⟨hname, -⟩ := words_cons.1 hline
    exact ⟨hname.bindable hk, Methods.plain h hinner⟩

theorem Branch.plain {limit : Nat} {l : Layout} {s : Stmt Unit} {ts : List Token} {inner : List Line}
    (h : Branch limit l s ts inner) (hts : Words ts) (hw : WordedLines inner) : s.Plain :=
  match h with
  | @Branch.intro _ _ _ _ other _ _ _ _ hc _ hb ho => by
    obtain ⟨hts, -⟩ := words_append.1 hts
    obtain ⟨hinner, hrest⟩ := wordedLines_append.1 hw
    have hcondition := hc.plain hts
    have hbody := Block.plain hb hinner
    have hother := Otherwise.plain ho hrest
    cases other with
    | none => exact ⟨hcondition, rfl, hbody⟩
    | some other => exact ⟨hcondition, ⟨rfl, hbody⟩, hother other rfl⟩

theorem Otherwise.plain {limit : Nat} {l : Layout} {other : Option (Stmt Unit)} {lines : List Line}
    (h : Otherwise limit l other lines) (hw : WordedLines lines) :
    ∀ s ∈ other, Binding.boundName? s = none ∧ s.Plain :=
  match h with
  | .nothing => fun _ hs => nomatch hs
  | .block _ _ h => by
    obtain ⟨-, hinner⟩ := wordedLines_cons.1 hw
    have hbody := Block.plain h hinner
    intro s hs
    exact Option.some.inj hs ▸ ⟨rfl, hbody⟩
  | .branch _ _ h => by
    obtain ⟨hline, hinner⟩ := wordedLines_cons.1 hw
    obtain ⟨-, hline⟩ := words_cons.1 hline
    obtain ⟨-, hline⟩ := words_cons.1 hline
    have hbranch := Branch.plain h hline hinner
    intro s hs
    exact Option.some.inj hs ▸ ⟨h.boundName?, hbranch⟩

theorem Function.plain {limit : Nat} {l : Layout} {r : Routine Unit} {ts : List Token}
    {inner : List Line} (h : Function limit l r ts inner) (hts : Words ts) (hw : WordedLines inner) :
    Bindable r.name.lexeme ∧ r.Plain :=
  match h with
  | .intro hk _ hparams _ _ _ _ hb => by
    obtain ⟨hname, hts⟩ := words_cons.1 hts
    obtain ⟨-, hts⟩ := words_cons.1 hts
    obtain ⟨hts, -⟩ := words_append.1 hts
    exact ⟨hname.bindable hk, hparams.bindable hts, Block.plain hb hw⟩

theorem Block.plain {limit : Nat} {l : Layout} {body : List (Stmt Unit)} {lines : List Line}
    (h : Block limit l body lines) (hw : WordedLines lines) : Stmt.PlainAll body :=
  match h with
  | .intro _ h _ => Statements.plain h hw

theorem Statements.plain {limit : Nat} {l : Layout} {ss : List (Stmt Unit)} {lines : List Line}
    (h : Statements limit l ss lines) (hw : WordedLines lines) : Stmt.PlainAll ss :=
  match h with
  | .nil => trivial
  | .cons h hs => by
    obtain ⟨hfirst, hrest⟩ := wordedLines_append.1 hw
    exact ⟨Statement.plain h hfirst, Statements.plain hs hrest⟩

theorem Methods.plain {limit : Nat} {l : Layout} {rs : List (Routine Unit)} {lines : List Line}
    (h : Methods limit l rs lines) (hw : WordedLines lines) : Routine.PlainAll rs :=
  match h with
  | .nil => trivial
  | .cons _ h hs => by
    obtain ⟨hline, hw⟩ := wordedLines_cons.1 hw
    obtain ⟨-, hline⟩ := words_cons.1 hline
    obtain ⟨hinner, hrest⟩ := wordedLines_append.1 hw
    obtain ⟨-, hroutine⟩ := Function.plain h hline hinner
    exact ⟨hroutine, Methods.plain hs hrest⟩

end

theorem Laid.wordedLines {lines : List Line} {tokens : List Token} (h : Laid lines tokens)
    (hw : Words tokens) : WordedLines lines := by
  intro line hline t ht
  have hmem : t ∈ lines.flatMap Line.tokens := List.mem_flatMap.2 ⟨line, hline, ht⟩
  rw [← h.filter] at hmem
  exact hw t (List.mem_filter.1 hmem).1

end Grammar

/-- **A text binds plain names.**  What is read from the tokens of a text without a report never binds
`this` or `super`, and no statement of it that may be skipped binds a name. -/
theorem Program.plain_of_read {argumentLimit : Nat} {source : String}
    (h : (Program.read argumentLimit (Token.scan source).stream).reports = []) :
    Stmt.PlainAll (Program.read argumentLimit (Token.scan source).stream).statements := by
  obtain ⟨lines, hstatements, hlaid⟩ := Reading.laid_of_read h
  exact hstatements.plain (hlaid.wordedLines fun _ ht => Token.ofWord_of_mem_scan ht)

end Offside
