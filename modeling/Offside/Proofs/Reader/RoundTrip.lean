import Offside.Proofs.Reader.Completeness

/-!
# Writing a program down and reading it back

A program may be laid out in many ways: every block chooses its own step of indentation, blank lines may
stand anywhere, and the word in front of an assignment may be left out.  Whatever is chosen, reading the text
gives the program back.

* `Grammar.Typeset` — the lines of a program set as text;
* `Grammar.Typeset.reads` — a cursor in front of such a text passes over its lines;
* `Grammar.Renders` — what it is to write a program down; `Grammar.read_rendering` — reading it back.
-/

set_option autoImplicit false

namespace Offside

open Token (Kind)

/-- Real tokens with nothing between them are passed one after the other, if all parentheses are closed
behind them. -/
theorem Cursor.passes_of_rest {s : Cursor} {ts rest : List Token} (hs : s.rest = ts ++ rest)
    (hreal : ∀ t ∈ ts, t.isIndentation = false) (hparens : parensOver s.parens ts = 0) :
    ∃ u, s.Passes ts u ∧ u.rest = rest ∧ ∀ t ∈ ts.getLast?, u.lastLine = t.line := by
  induction ts generalizing s with
  | nil => exact ⟨s, rfl, hs, by simp⟩
  | cons t ts ih =>
    obtain ⟨ht, hreal⟩ := List.forall_mem_cons.1 hreal
    have hnext : (s.consume t (ts ++ rest)).rest = ts ++ rest := by
      cases ts with
      | nil => exact if_pos hparens
      | cons t' ts =>
        have ht' : t'.isIndentation = false := hreal t' List.mem_cons_self
        unfold consume
        simp only
        split
        · rfl
        · rw [List.cons_append, List.dropWhile_cons_of_neg (by simp [ht'])]
    obtain ⟨u, hpass, hu, hlast⟩ := ih hnext hreal hparens
    refine ⟨u, ⟨ht, ts ++ rest, hs, hpass⟩, hu, ?_⟩
    cases ts with
    | nil =>
      have hsame : u = s.consume t ([] ++ rest) := hpass
      rw [hsame]
      simp [consume]
    | cons t' ts => simpa using hlast

namespace Grammar

/-- The tokens are the lines in order, each on a line of the text for itself behind the indentation that its
layout holds, with any number of blank lines in front of it and at the end.  The number is that of the line
of the text in front, if there is one. -/
inductive Typeset : Option Int → List Line → List Token → Prop
  | done {last : Option Int} {blanks : List Token} :
      (∀ t ∈ blanks, t.isIndentation = true ∧ some t.line ≠ last) → Typeset last [] blanks
  | line {last : Option Int} {number : Int} {line : Line} {lines : List Line}
      {blanks run rest : List Token} :
      (∀ t ∈ blanks, t.isIndentation = true ∧ some t.line ≠ last ∧ t.line ≠ number) →
      some number ≠ last →
      (∀ t ∈ run, t.isIndentation = true ∧ t.line = number) → line.layout.Holds run →
      (∀ t ∈ line.tokens, t.line = number) → Typeset (some number) lines rest →
      Typeset last (line :: lines) (blanks ++ (run ++ (line.tokens ++ rest)))

/-- A line in the first column does not begin with a token that would go on with the line before it. -/
def Line.Fresh (line : Line) : Prop :=
  line.layout.width = 0 → ∀ t ∈ line.tokens.head?, t.kind ≠ .leftParen ∧ t.kind ≠ .minus

theorem goesOn_of_isIndentation {k : Kind} (h : k.isIndentation = true) : goesOn k = false := by
  revert h
  cases k <;> decide

/-- Of the tokens that begin lines, only two could also go on with one. -/
theorem goesOn_of_startsLine {k : Kind} (h : startsLine k = true) (hparen : k ≠ .leftParen)
    (hminus : k ≠ .minus) : goesOn k = false := by
  revert h hparen hminus
  cases k <;> decide

/-- Where a text goes on behind a line, the line ends. -/
theorem Typeset.breaks {s : Cursor} {lines : List Line} (hproper : ∀ line ∈ lines, line.Proper)
    (hfresh : ∀ line ∈ lines, line.Fresh) (h : Typeset (some s.lastLine) lines s.rest) : Breaks s := by
  intro t ht
  generalize hrest : s.rest = tokens at h ht
  cases h with
  | done hblanks =>
    obtain ⟨hindent, hline⟩ := hblanks t (List.mem_of_mem_head? ht)
    exact ⟨fun heq => hline (congrArg some heq), goesOn_of_isIndentation hindent⟩
  | @line _ number line _ blanks run _ hblanks hnumber hrun hholds htokens _ =>
    rw [List.head?_append] at ht
    cases hb : blanks.head? with
    | some b =>
      rw [hb, Option.some_or, Option.mem_some_iff] at ht
      subst ht
      obtain ⟨hindent, hline, -⟩ := hblanks b (List.mem_of_mem_head? (by rw [hb]; rfl))
      exact ⟨fun heq => hline (congrArg some heq), goesOn_of_isIndentation hindent⟩
    | none =>
      rw [hb, Option.none_or, List.head?_append] at ht
      cases hr : run.head? with
      | some b =>
        rw [hr, Option.some_or, Option.mem_some_iff] at ht
        subst ht
        obtain ⟨hindent, hline⟩ := hrun b (List.mem_of_mem_head? (by rw [hr]; rfl))
        exact ⟨fun heq => hnumber (by rw [← hline, heq]), goesOn_of_isIndentation hindent⟩
      | none =>
        obtain ⟨first, us, hfirst, hstarts⟩ := (hproper line List.mem_cons_self).head
        rw [hr, Option.none_or, hfirst, List.cons_append, List.head?_cons, Option.mem_some_iff] at ht
        subst ht
        have hwidth : line.layout.width = 0 := by
          rw [← hholds.length, List.head?_eq_none_iff.1 hr]
          rfl
        obtain ⟨hparen, hminus⟩ := hfresh line List.mem_cons_self hwidth first (by rw [hfirst]; rfl)
        have hline : first.line = number := htokens first (by rw [hfirst]; exact List.mem_cons_self)
        exact ⟨fun heq => hnumber (by rw [← hline, heq]), goesOn_of_startsLine hstarts hparen hminus⟩

/-- A cursor in front of a text passes over its lines, up to blank lines at the end. -/
theorem Typeset.reads {last : Option Int} {lines : List Line} {tokens : List Token}
    (h : Typeset last lines tokens) :
    ∀ {s : Cursor}, s.rest = tokens → s.parens = 0 → (∀ line ∈ lines, line.Proper) →
      (∀ line ∈ lines.tail, line.Fresh) →
      ∃ u, s.Reads Breaks lines u ∧ (lineRun u.rest).2 = [] := by
  induction h with
  | done hblanks =>
    intro s hs _ _ _
    refine ⟨s, rfl, ?_⟩
    rw [lineRun_snd_eq_nil_iff, hs]
    exact fun t ht => (hblanks t ht).1
  | @line last number line lines blanks run rest hblanks hnumber hrun hholds htokens hlines ih =>
    intro s hs hparens hproper hfresh
    obtain ⟨hline, hproper⟩ := List.forall_mem_cons.1 hproper
    obtain ⟨first, us, hfirst, -⟩ := hline.head
    have hreal : first.isIndentation = false :=
      hline.balanced.real first (by rw [hfirst]; exact List.mem_cons_self)
    have hfirstLine : first.line = number := htokens first (by rw [hfirst]; exact List.mem_cons_self)
    have hsplit : lineRun s.rest = (run.reverse, line.tokens ++ rest) := by
      rw [hs, hfirst, List.cons_append]
      refine lineRun_of_split _ (fun t ht => (hblanks t ht).1) ?_ ?_ hreal
      · intro t ht
        rw [hfirstLine]
        exact (hblanks t (List.mem_of_getLast? ht)).2.2
      · intro t ht
        rw [hfirstLine]
        exact hrun t ht
    have hbegun : s.begun.rest = line.tokens ++ rest := congrArg Prod.snd hsplit
    obtain ⟨m, hpass, hm, hlast⟩ := Cursor.passes_of_rest hbegun hline.balanced.real
      ((hline.balanced.parens _).trans hparens)
    have hlastLine : m.lastLine = number := by
      have hne : line.tokens ≠ [] := by rw [hfirst]; simp
      rw [hlast _ (List.getLast?_eq_some_getLast hne)]
      exact htokens _ (List.getLast_mem hne)
    have hmparens : m.parens = 0 := by
      rw [hpass.parens, hline.balanced.parens]
      exact hparens
    obtain ⟨u, hreads, hend⟩ := ih hm hmparens hproper fun l hl => hfresh l (List.mem_of_mem_tail hl)
    refine ⟨u, ⟨?_, m, hpass, ?_, hreads⟩, hend⟩
    · rw [hsplit]
      exact Layout.Holds.reverse (by rwa [List.reverse_reverse])
    · rw [← hm, ← hlastLine] at hlines
      exact hlines.breaks hproper hfresh

/-- The tokens are a rendering of the statements: their lines, in any layout, set as text. -/
def Renders (limit : Nat) (statements : List (Stmt Unit)) (tokens : List Token) : Prop :=
  ∃ lines, Statements limit .top statements lines ∧ (∀ line ∈ lines.tail, line.Fresh) ∧
    Typeset none lines tokens

/-- **A program that is written down is read back.**  Every rendering of statements, whatever its layout, is
read without a report as exactly these statements, so all renderings are read alike. -/
theorem read_rendering {limit : Nat} {statements : List (Stmt Unit)} {tokens : List Token}
    (h : Renders limit statements tokens) (endLine : Int) :
    Program.read limit ⟨tokens, endLine⟩ = ⟨statements, []⟩ ∧
    ∀ tokens' endLine', Renders limit statements tokens' →
      Program.read limit ⟨tokens', endLine'⟩ = Program.read limit ⟨tokens, endLine⟩ := by
  have hread {tokens : List Token} (h : Renders limit statements tokens) (endLine : Int) :
      Program.read limit ⟨tokens, endLine⟩ = ⟨statements, []⟩ := by
    obtain ⟨lines, hstatements, hfresh, htypeset⟩ := h
    obtain ⟨u, hreads, hend⟩ := htypeset.reads (s := .start limit ⟨tokens, endLine⟩) rfl rfl
      hstatements.proper hfresh
    have hstands : Reading.Stands limit .top tokens.length (.start limit ⟨tokens, endLine⟩) :=
      ⟨rfl, rfl, rfl, Nat.le_refl _⟩
    have hprogram : Reading.program tokens.length (.start limit ⟨tokens, endLine⟩) = .ok statements u :=
      hstatements.read .top _ u tokens.length tokens.length hstands (Nat.le_refl _) hreads (Or.inl hend)
    unfold Program.read
    rw [hprogram]
    exact congrArg (Program.mk statements) hreads.reports
  refine ⟨hread h endLine, fun tokens' endLine' h' => ?_⟩
  rw [hread h endLine, hread h' endLine']

/-- A loop over an assignment. -/
def loopStatements : List (Stmt Unit) :=
  [.loop (.name ⟨.identifier, "a", .null, 2⟩ ())
    (.block [.assign ⟨.identifier, "a", .null, 4⟩
      (some (.unary ⟨.minus, "-", .null, 4⟩ (.name ⟨.identifier, "b", .null, 4⟩ ()))) ()])]

/-- The lines of the loop, with its body two spaces in. -/
def loopLines : List Line :=
  [⟨.top, [⟨.whileWord, "while", .null, 2⟩, ⟨.identifier, "a", .null, 2⟩, ⟨.colon, ":", .null, 2⟩]⟩,
   ⟨⟨some " ", [2]⟩, [⟨.setWord, "set", .null, 4⟩, ⟨.identifier, "a", .null, 4⟩,
     ⟨.toWord, "to", .null, 4⟩, ⟨.minus, "-", .null, 4⟩, ⟨.identifier, "b", .null, 4⟩]⟩]

/-- The loop as text, with a blank line in front of its header and of its body. -/
def loopTokens : List Token :=
  [⟨.tab, "\t", .null, 1⟩] ++ ([] ++
    ([⟨.whileWord, "while", .null, 2⟩, ⟨.identifier, "a", .null, 2⟩, ⟨.colon, ":", .null, 2⟩] ++
      ([⟨.space, " ", .null, 3⟩] ++ ([⟨.space, " ", .null, 4⟩, ⟨.space, " ", .null, 4⟩] ++
        ([⟨.setWord, "set", .null, 4⟩, ⟨.identifier, "a", .null, 4⟩, ⟨.toWord, "to", .null, 4⟩,
          ⟨.minus, "-", .null, 4⟩, ⟨.identifier, "b", .null, 4⟩] ++ [])))))

theorem statements_loopLines : Statements 255 .top loopStatements loopLines := by
  have hcondition : Operand 255 (.name ⟨.identifier, "a", .null, 2⟩ ()) [⟨.identifier, "a", .null, 2⟩] :=
    .name rfl
  have hvalue : Spells 255 Reading.tiers
      (.unary ⟨.minus, "-", .null, 4⟩ (.name ⟨.identifier, "b", .null, 4⟩ ()))
      [⟨.minus, "-", .null, 4⟩, ⟨.identifier, "b", .null, 4⟩] := by
    repeat apply Spells.tighter
    exact .sign rfl (.operand (.name rfl))
  have hassign : Simple 255 _ (⟨.identifier, "a", .null, 4⟩ :: ⟨.toWord, "to", .null, 4⟩ :: _) :=
    .assign rfl rfl hvalue
  have hset : SetWord [⟨.setWord, "set", .null, 4⟩] := .present rfl
  have hopens : Layout.top.Opens ⟨some " ", [2]⟩ :=
    .intro (l := .top) (show 2 ∈ Layout.steps " " by decide) fun h => absurd rfl h
  have hbody : Block 255 .top _ _ := .intro hopens (.cons (.simple hset hassign) .nil) (List.cons_ne_nil _ _)
  have hloop := @Statement.loop 255 .top _ _ _ ⟨.whileWord, "while", .null, 2⟩ ⟨.colon, ":", .null, 2⟩ _
    rfl (hcondition.spells Reading.tiers) rfl hbody
  exact .cons hloop .nil

theorem typeset_loopTokens : Typeset none loopLines loopTokens := by
  refine @Typeset.line none 2 _ _ _ _ _ (by decide) (by decide) (by decide) ⟨rfl, by simp⟩ (by decide) ?_
  refine @Typeset.line (some 2) 4 _ _ _ _ _ (by decide) (by decide) (by decide) ⟨rfl, ?_⟩ (by decide) ?_
  · decide
  · exact .done (by simp)

theorem read_rendering_loopTokens :
    Renders 255 loopStatements loopTokens ∧ Program.read 255 ⟨loopTokens, 5⟩ = ⟨loopStatements, []⟩ := by
  have h : Renders 255 loopStatements loopTokens :=
    ⟨loopLines, statements_loopLines, by simp [loopLines, Line.Fresh, Layout.width], typeset_loopTokens⟩
  exact ⟨h, (read_rendering h 5).1⟩

end Grammar
end Offside
