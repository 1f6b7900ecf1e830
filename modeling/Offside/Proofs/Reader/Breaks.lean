import Offside.Proofs.Reader.Soundness
import Offside.Token.Lexer

/-!
# Line breaks inside statements

Line breaks are no tokens.  A token remembers the line on which it starts, and indentation stands between the
tokens of two lines if the second is indented.  Between parentheses the reader steps over indentation; elsewhere
indentation ends a statement, but a line that starts at the margin has none, and the reader goes on with its
tokens as long as they fit.

* `Token.Before`, `Token.before_scan` — how the lines of the tokens of a text follow one another;
* `Grammar.adjacent_of_laid` — tokens of a statement outside parentheses stand side by side in the text;
* `Grammar.breaks_at_margin` — a statement goes on outside parentheses on the same line or at the margin of a
  later one;
* `Grammar.absorbs_differenceText` — and it does go on there.
-/

set_option autoImplicit false

namespace Offside

open Token (Kind)

/-! ## Lines of the tokens of a text -/

namespace Token

/-- The line on which a token ends; a string may go over several. -/
def endLine (t : Token) : Int :=
  t.line + (t.lexeme.toList.count '\n' : Nat)

theorem line_le_endLine (t : Token) : t.line ≤ t.endLine := by
  unfold endLine
  omega

/-- How a token stands to a later one: it ends before that one starts, and if the later one is indentation, at
the start of its line, then only indentation is in front of it there. -/
structure Before (t u : Token) : Prop where
  le : t.endLine ≤ u.line
  indentation : u.isIndentation = true → t.isIndentation = true ∨ t.endLine < u.line

theorem isIndentation_of_pairSign? {first second : Char} {k : Kind}
    (h : Piece.pairSign? first second = some k) : k.isIndentation = false := by
  unfold Piece.pairSign? at h
  split at h <;> first | (cases h; rfl) | cases h

theorem isIndentation_of_singleSign? {c : Char} {k : Kind} (h : Piece.singleSign? c = some k) :
    k.isIndentation = false := by
  unfold Piece.singleSign? at h
  split at h <;> first | (cases h; rfl) | cases h

/-- What the form of a piece says about where and what it is. -/
structure Piece.Apt (lineStart : Bool) (p : Piece) : Prop where
  lineBreak : p.form = .lineBreak → p.text = ['\n']
  indentation : p.form = .indentation → lineStart = true ∧ ∀ c ∈ p.text, isIndent c = true
  sign : ∀ k, p.form = .sign k → k.isIndentation = false

theorem Piece.apt_stringFrom (lineStart : Bool) (c : Char) (cs : List Char) :
    Apt lineStart (stringFrom c cs).1 := by
  unfold stringFrom
  split
  · exact ⟨nofun, nofun, nofun⟩
  · exact ⟨nofun, nofun, nofun⟩

theorem Piece.apt_signFrom (lineStart : Bool) (c : Char) (cs : List Char) :
    Apt lineStart (signFrom c cs).1 := by
  unfold signFrom
  split
  · next hpair =>
    refine ⟨nofun, nofun, ?_⟩
    rintro k ⟨⟩
    obtain ⟨second, -, hk⟩ := Option.bind_eq_some_iff.1 hpair
    exact isIndentation_of_pairSign? hk
  · split
    · next hsingle =>
      refine ⟨nofun, nofun, ?_⟩
      rintro k ⟨⟩
      exact isIndentation_of_singleSign? hsingle
    · exact ⟨nofun, nofun, nofun⟩

theorem Piece.apt_cut (lineStart : Bool) (c : Char) (cs : List Char) :
    Apt lineStart (cut lineStart c cs).1 := by
  unfold cut
  split
  · next hc => exact ⟨fun _ => by rw [hc], nofun, nofun⟩
  split
  · next hindent =>
    rw [Bool.and_eq_true] at hindent
    refine ⟨nofun, fun _ => ⟨hindent.1, ?_⟩, nofun⟩
    intro d hd
    rcases List.mem_cons.1 hd with rfl | hd
    · exact hindent.2
    · exact List.mem_takeWhile_imp hd
  split
  · exact ⟨nofun, nofun, nofun⟩
  split
  · exact ⟨nofun, nofun, nofun⟩
  split
  · exact ⟨nofun, nofun, nofun⟩
  split
  · exact apt_stringFrom ..
  split
  · exact ⟨nofun, nofun, nofun⟩
  · exact apt_signFrom ..

theorem isIndentation_ofWord (word : String) : (Kind.ofWord word).isIndentation = false := by
  unfold Kind.ofWord
  cases h : Kind.reserved.find? fun k => k.label == word with
  | none => rfl
  | some k =>
    have hmem := List.mem_of_find?_eq_some h
    revert hmem
    rw [Option.getD_some]
    cases k <;> decide

/-- The tokens of a piece start with it and end in it. -/
theorem lines_ofPiece {line : Int} {p : Piece} {t : Token} (ht : t ∈ ofPiece line p) :
    t.line = line ∧ t.endLine ≤ line + (p.breaks : Nat) := by
  unfold ofPiece at ht
  split at ht
  case h_1 =>
    obtain ⟨c, hc, rfl⟩ := List.mem_map.1 ht
    have hcount : ([c]).count '\n' ≤ p.text.count '\n' := (List.singleton_sublist.2 hc).count_le '\n'
    refine ⟨rfl, ?_⟩
    simp only [endLine, ofBlank, Piece.breaks, String.toList_singleton]
    omega
  all_goals
    first
    | (rw [List.mem_singleton.1 ht]
       simp [endLine, Piece.breaks])
    | cases ht

/-- Indentation is found at the start of a line only. -/
theorem lineStart_of_isIndentation {lineStart : Bool} {line : Int} {p : Piece} {t : Token}
    (hp : p.Apt lineStart) (ht : t ∈ ofPiece line p) (hi : t.isIndentation = true) : lineStart = true := by
  unfold ofPiece at ht
  split at ht
  case h_1 hform => exact (hp.indentation hform).1
  case h_4 =>
    rw [List.mem_singleton.1 ht] at hi
    rw [isIndentation, isIndentation_ofWord] at hi
    cases hi
  case h_5 k hform =>
    rw [List.mem_singleton.1 ht] at hi
    rw [isIndentation, hp.sign k hform] at hi
    cases hi
  all_goals
    first
    | (rw [List.mem_singleton.1 ht] at hi; cases hi)
    | cases ht

theorem pairwise_ofPiece {lineStart : Bool} {line : Int} {p : Piece} (hp : p.Apt lineStart) :
    (ofPiece line p).Pairwise Before := by
  unfold ofPiece
  split
  case h_1 hform =>
    -- several tokens come from one piece only if they are indentation
    rw [List.pairwise_map]
    refine List.Pairwise.imp_of_mem ?_ (List.pairwise_of_forall fun _ _ => True.intro)
    intro c d hc hd _
    have hindent := (hp.indentation hform).2 c hc
    refine ⟨?_, fun _ => Or.inl ?_⟩
    · have hcount : ([c]).count '\n' = 0 := by
        refine List.count_eq_zero.2 ?_
        intro hmem
        rw [← List.mem_singleton.1 hmem] at hindent
        cases hindent
      simp only [endLine, ofBlank, String.toList_singleton, hcount]
      omega
    · show (if c = ' ' then Kind.space else Kind.tab).isIndentation = true
      split <;> rfl
  all_goals
    first
    | exact List.Pairwise.nil
    | exact List.pairwise_singleton ..

/-- The tokens of the pieces of a text: they start on the first line of the text or later, later if they are
indentation and the text does not start a line, and each stands before the following ones. -/
theorem before_splitFrom (fuel : Nat) (lineStart : Bool) (cs : List Char) (line : Int) :
    let tokens := (placed line (Piece.splitFrom fuel lineStart cs)).flatMap fun q => ofPiece q.1 q.2
    (∀ t ∈ tokens, line ≤ t.line ∧ (lineStart = false → t.isIndentation = true → line < t.line)) ∧
      tokens.Pairwise Before := by
  induction fuel generalizing lineStart cs line with
  | zero => exact ⟨fun t ht => absurd ht List.not_mem_nil, .nil⟩
  | succ fuel ih =>
    cases cs with
    | nil => exact ⟨fun t ht => absurd ht List.not_mem_nil, .nil⟩
    | cons c cs =>
      let p := (Piece.cut lineStart c cs).1
      have hp : p.Apt lineStart := Piece.apt_cut lineStart c cs
      obtain ⟨hlines, hpairs⟩ := ih (p.form == .lineBreak) (Piece.cut lineStart c cs).2
        (line + (p.breaks : Nat))
      simp only [Piece.splitFrom, placed, List.flatMap_cons]
      -- indentation behind this piece is behind a line break, this one or a later one
      have hdeeper : ∀ t ∈ (placed (line + (p.breaks : Nat)) (Piece.splitFrom fuel (p.form == .lineBreak)
          (Piece.cut lineStart c cs).2)).flatMap (fun q => ofPiece q.1 q.2),
          t.isIndentation = true → line < t.line := by
        intro t ht hi
        obtain ⟨hle, hlt⟩ := hlines t ht
        cases hbreak : p.form == .lineBreak with
        | false =>
          have := hlt hbreak hi
          omega
        | true =>
          have hone : p.breaks = 1 := by
            unfold Piece.breaks
            rw [hp.lineBreak (eq_of_beq hbreak)]
            rfl
          omega
      refine ⟨?_, List.pairwise_append.2 ⟨pairwise_ofPiece hp, hpairs, ?_⟩⟩
      · intro t ht
        rcases List.mem_append.1 ht with ht | ht
        · refine ⟨Int.le_of_eq (lines_ofPiece ht).1.symm, ?_⟩
          intro hstart hi
          rw [lineStart_of_isIndentation hp ht hi] at hstart
          cases hstart
        · have hle := (hlines t ht).1
          exact ⟨by omega, fun _ => hdeeper t ht⟩
      · intro t ht u hu
        have hend := (lines_ofPiece ht).2
        obtain ⟨hle, hlt⟩ := hlines u hu
        refine ⟨Int.le_trans hend hle, fun hi => Or.inr ?_⟩
        have hform : (p.form == .lineBreak) = false := by
          rw [beq_eq_false_iff_ne]
          intro hbreak
          change t ∈ ofPiece line p at ht
          simp only [ofPiece, hbreak] at ht
          cases ht
        exact Int.lt_of_le_of_lt hend (hlt hform hi)

/-- **Lines of a text.**  Each token ends on the line on which the next one starts or on an earlier one, and
indentation is in front of all else on its line. -/
theorem before_scan (source : String) : (scan source).stream.tokens.Pairwise Before :=
  (before_splitFrom source.toList.length true source.toList 1).2

end Token

/-! ## Tokens of a statement in the text -/

namespace Grammar

/-- Tokens of a statement that follow one another with no parenthesis open between them stand side by side. -/
theorem Written.adjacent {n : Nat} {ts text : List Token} (h : Written n ts text) {before after : List Token}
    {a b : Token} (hts : ts = before ++ a :: b :: after) (hparens : Cursor.parensOver n (before ++ [a]) = 0) :
    ∃ pre post, text = pre ++ a :: b :: post := by
  induction h generalizing before with
  | nil => cases before <;> cases hts
  | cons hreal hblanks hopen hrest ih =>
    rename_i n t ts blanks text
    cases before with
    | nil =>
      obtain ⟨rfl, rfl⟩ := List.cons.inj hts
      have hnone : blanks = [] := by
        by_contra hne
        exact hopen hne hparens
      cases hrest with
      | cons _ _ _ _ =>
        rw [hnone]
        exact ⟨[], _, rfl⟩
    | cons c before =>
      obtain ⟨rfl, htail⟩ := List.cons.inj hts
      obtain ⟨pre, post, rfl⟩ := ih htail hparens
      exact ⟨t :: (blanks ++ pre), post, by simp⟩

/-- Each line is written somewhere in the text. -/
theorem Laid.written {lines : List Line} {tokens : List Token} (h : Laid lines tokens) {line : Line}
    (hline : line ∈ lines) : ∃ pre text post, tokens = pre ++ (text ++ post) ∧ Written 0 line.tokens text := by
  induction h with
  | done _ => cases hline
  | line _ _ _ _ hw _ ih =>
    rename_i first lines gap run text rest token _ _ _ _ _
    rcases List.mem_cons.1 hline with rfl | hline
    · exact ⟨gap ++ run, token :: text, rest, by simp, hw⟩
    · obtain ⟨pre, text', post, rfl, hw'⟩ := ih hline
      exact ⟨gap ++ (run ++ (token :: (text ++ pre))), text', post, by simp, hw'⟩

theorem adjacent_of_laid {lines : List Line} {tokens : List Token} (h : Laid lines tokens) {line : Line}
    (hline : line ∈ lines) {before after : List Token} {a b : Token}
    (hts : line.tokens = before ++ a :: b :: after) (hparens : Cursor.parensOver 0 (before ++ [a]) = 0) :
    ∃ pre post, tokens = pre ++ a :: b :: post := by
  obtain ⟨pre, text, post, rfl, hw⟩ := h.written hline
  obtain ⟨pre', post', rfl⟩ := hw.adjacent hts hparens
  exact ⟨pre ++ pre', post' ++ post, by simp⟩

/-! ## Where statements go on -/

/-- The line has no indentation: it starts at the margin. -/
def AtMargin (tokens : List Token) (line : Int) : Prop :=
  ∀ t ∈ tokens, t.isIndentation = true → t.line ≠ line

/-- Of two real tokens side by side the second one is on the line on which the first one ends, or it is the
first one on a line that starts at the margin. -/
theorem sameLine_or_atMargin {tokens pre post : List Token} {a b : Token}
    (h : tokens.Pairwise Token.Before) (htokens : tokens = pre ++ a :: b :: post)
    (ha : a.isIndentation = false) (hb : b.isIndentation = false) :
    b.line = a.endLine ∨ a.endLine < b.line ∧ AtMargin tokens b.line := by
  rw [htokens, List.pairwise_append, List.pairwise_cons, List.pairwise_cons] at h
  obtain ⟨-, ⟨hafterA, hafterB, -⟩, hcross⟩ := h
  have hab := (hafterA b List.mem_cons_self).le
  by_cases hsame : b.line = a.endLine
  · exact Or.inl hsame
  · refine Or.inr ⟨by omega, ?_⟩
    intro t ht hi heq
    rw [htokens] at ht
    rcases List.mem_append.1 ht with ht | ht
    · -- in front of the first token the lines are at most those of that token
      have hle := (hcross t ht a List.mem_cons_self).le
      have := t.line_le_endLine
      have := a.line_le_endLine
      omega
    · rcases List.mem_cons.1 ht with rfl | ht
      · rw [ha] at hi
        cases hi
      rcases List.mem_cons.1 ht with rfl | ht
      · rw [hb] at hi
        cases hi
      · -- behind the second token there is no more indentation on its line
        have := b.line_le_endLine
        rcases (hafterB t ht).indentation hi with hb' | hlt
        · rw [hb] at hb'
          cases hb'
        · omega

/-- Outside its parentheses the line of a program stays on one line of the text. -/
def Line.Unbroken (line : Line) : Prop :=
  ∀ before a b after, line.tokens = before ++ a :: b :: after →
    Cursor.parensOver 0 (before ++ [a]) = 0 → b.line = a.endLine

/-- **Where statements go on.**  Take a text that is read without a report, and two consecutive tokens of a
statement or a header that are not inside a pair of its parentheses.  The later one is on the line on which the
earlier one ends, or it is the first one of a later line that starts at the margin.  So inside a block, where
lines are indented, line breaks end statements; a line at the margin may be taken for the rest of the statement
before it. -/
theorem breaks_at_margin {argumentLimit : Nat} {source : String}
    (h : (Program.read argumentLimit (Token.scan source).stream).reports = []) :
    ∃ lines, Statements argumentLimit .top
        (Program.read argumentLimit (Token.scan source).stream).statements lines ∧
      Laid lines (Token.scan source).stream.tokens ∧
      ∀ line ∈ lines, ∀ before a b after, line.tokens = before ++ a :: b :: after →
        Cursor.parensOver 0 (before ++ [a]) = 0 →
        b.line = a.endLine ∨
          a.endLine < b.line ∧ AtMargin (Token.scan source).stream.tokens b.line := by
  obtain ⟨lines, hstatements, hlaid⟩ := Reading.laid_of_read h
  refine ⟨lines, hstatements, hlaid, ?_⟩
  intro line hline before a b after htokens hparens
  have hreal := (hstatements.proper line hline).balanced.real
  rw [htokens] at hreal
  obtain ⟨pre, post, hadjacent⟩ := adjacent_of_laid hlaid hline htokens hparens
  exact sameLine_or_atMargin (Token.before_scan source) hadjacent (hreal a (by simp)) (hreal b (by simp))

/-- A block, in which an indented line ends a statement, and a line at the margin that does not. -/
def marginText : String :=
  "if a:\n  print b\n  c\n- d"

theorem breaks_at_margin_marginText :
    (Program.read 255 (Token.scan marginText).stream).reports = [] ∧
    ∃ lines, Statements 255 .top (Program.read 255 (Token.scan marginText).stream).statements lines ∧
      ∀ line ∈ lines, ∀ before a b after, line.tokens = before ++ a :: b :: after →
        Cursor.parensOver 0 (before ++ [a]) = 0 →
        b.line = a.endLine ∨
          a.endLine < b.line ∧ AtMargin (Token.scan marginText).stream.tokens b.line := by
  have h : (Program.read 255 (Token.scan marginText).stream).reports = [] :=
    List.isEmpty_iff.1 (by decide +kernel)
  obtain ⟨lines, hstatements, -, hbreaks⟩ := breaks_at_margin h
  exact ⟨h, lines, hstatements, hbreaks⟩

/-- A difference whose second operand is on a line of its own. -/
def differenceText : String :=
  "print a\n- b"

/-- Whether the statements are a single one that prints. -/
def isSinglePrint : List (Stmt Unit) → Bool
  | [.print _] => true
  | _ => false

theorem eq_of_isSinglePrint {ss : List (Stmt Unit)} (h : isSinglePrint ss = true) :
    ∃ e, ss = [.print e] := by
  unfold isSinglePrint at h
  split at h
  · exact ⟨_, rfl⟩
  · cases h

/-- A statement that prints is one line, which begins with its keyword. -/
theorem Statement.line_of_print {limit : Nat} {l : Layout} {e : Expr Unit} {lines : List Line}
    (h : Statement limit l (.print e) lines) : ∃ word ts, lines = [⟨l, word :: ts⟩] ∧ word.kind = .printWord := by
  cases h with
  | simple _ h => cases h
  | print hword _ => exact ⟨_, _, rfl, hword⟩
  | giveBack _ h => cases h
  | branch _ h => cases h

theorem Statements.line_of_print {limit : Nat} {l : Layout} {e : Expr Unit} {lines : List Line}
    (h : Statements limit l [.print e] lines) : ∃ line, lines = [line] := by
  cases h with
  | cons hfirst hrest =>
    cases hrest
    obtain ⟨word, ts, rfl, -⟩ := hfirst.line_of_print
    exact ⟨_, rfl⟩

/-- The line at the margin is no statement of its own: the text is one statement over two lines. -/
theorem absorbs_differenceText :
    (Token.scan differenceText).reports = [] ∧
    (Program.read 255 (Token.scan differenceText).stream).reports = [] ∧
    ¬ ∃ lines, Statements 255 .top (Program.read 255 (Token.scan differenceText).stream).statements lines ∧
      Laid lines (Token.scan differenceText).stream.tokens ∧ ∀ line ∈ lines, line.Unbroken := by
  refine ⟨List.isEmpty_iff.1 (by decide +kernel), List.isEmpty_iff.1 (by decide +kernel), ?_⟩
  rintro ⟨lines, hstatements, hlaid, hunbroken⟩
  have hsingle : isSinglePrint (Program.read 255 (Token.scan differenceText).stream).statements = true := by
    decide +kernel
  obtain ⟨e, hprint⟩ := eq_of_isSinglePrint hsingle
  rw [hprint] at hstatements
  obtain ⟨line, rfl⟩ := hstatements.line_of_print
  have hreal : ((Token.scan differenceText).stream.tokens.filter fun t => !t.isIndentation).map
      (fun t => (t.kind, t.line, t.endLine)) =
      [(.printWord, 1, 1), (.identifier, 1, 1), (.minus, 2, 2), (.identifier, 2, 2)] := by
    decide +kernel
  rw [hlaid.filter, List.flatMap_singleton] at hreal
  obtain ⟨word, ts, htokens, hword, hreal⟩ := List.map_eq_cons_iff.1 hreal
  obtain ⟨left, ts, rfl, hleft, hreal⟩ := List.map_eq_cons_iff.1 hreal
  obtain ⟨sign, ts, rfl, hsign, -⟩ := List.map_eq_cons_iff.1 hreal
  simp only [Prod.mk.injEq] at hword hleft hsign
  have hparens : Cursor.parensOver 0 ([word] ++ [left]) = 0 := by
    simp [Cursor.parensOver, Cursor.parensAfter, hword.1, hleft.1]
  have hsame := hunbroken line List.mem_cons_self [word] left sign ts htokens hparens
  rw [hsign.2.1, hleft.2.2] at hsame
  cases hsame

end Grammar
end Offside
