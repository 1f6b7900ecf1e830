import Offside.Proofs.Reader.Breaks
import Offside.Proofs.Token.Rendering

/-!
# Statements on lines of their own

A statement ends where the next token is indentation or not on the line of the token consumed last.  That line is the
one on which the token starts, so a string over several lines ends further down: what follows on its last line, at the
margin, is taken for the next statement.  Everywhere else statements, methods and alternatives start below the line
on which the one before ends.

* `Line.Below`, `Line.Meets` — how a line of a program may stand to the one before it;
* `Cursor.Reads.chain` — lines that may end where they end stand like this;
* `Reading.declaration_of_statement` — what becomes of a statement with something behind it on its line;
* `Grammar.starts_below` — the lines of a text that is read without a report;
* `Grammar.meets_sharedText` — two statements that share a line of the text.
-/

set_option autoImplicit false

namespace Offside

open Grammar (Line)

/-! ## Blanks and tokens over several lines -/

/-- A leading blank of a text has the character of its kind. -/
theorem Token.Stands.isBlank {t : Token} (h : t.Stands) (hind : t.isIndentation = true) : t.IsBlank := by
  refine ⟨hind, ?_⟩
  cases h with
  | @blank c hc ht =>
    rw [ht]
    rcases (Bool.or_eq_true_iff.1 hc) with hc | hc
    · obtain rfl := eq_of_beq hc
      rfl
    · obtain rfl := eq_of_beq hc
      rfl
  | piece hfits hkind ht =>
    rw [(hfits.token hkind ht).2] at hind
    cases hind

theorem Token.Stands.kind_eq_string {t : Token} (h : t.Stands) (hlines : t.line < t.endLine) : t.kind = .string := by
  cases h with
  | @blank c hc ht =>
    rw [ht, endLine_ofBlank _ hc] at hlines
    exact absurd hlines (Int.lt_irrefl _)
  | @piece p before after hfits hkind ht =>
    have hmem : '\n' ∈ p.text := by
      rw [← (hfits.token hkind ht).1, ← List.count_pos_iff]
      unfold Token.endLine at hlines
      omega
    obtain ⟨form, text⟩ := p
    rcases hfits.lineFeed_mem hmem with rfl | rfl | rfl
    · cases hkind
    · rw [← (List.cons.inj ht).1]
    · cases hkind

/-! ## How a line stands to the next one -/

namespace Grammar

/-- The second line starts below the line of the text on which the first one ends. -/
def Line.Below (p q : Line) : Prop :=
  ∃ a ∈ p.tokens.getLast?, ∃ b ∈ q.tokens.head?, a.endLine < b.line

/-- The second line, which has no indentation, starts on the line of the text on which the first one ends, and that is
the last line of a string over several lines. -/
def Line.Meets (p q : Line) : Prop :=
  q.layout.width = 0 ∧
    ∃ a ∈ p.tokens.getLast?, ∃ b ∈ q.tokens.head?, a.kind = .string ∧ a.line < a.endLine ∧ a.endLine = b.line

end Grammar

namespace Cursor

variable {s u : Cursor}

theorem Passes.lastLine {ts : List Token} (h : s.Passes ts u) : ∀ a ∈ ts.getLast?, u.lastLine = a.line := by
  induction ts generalizing s with
  | nil => exact fun a ha => absurd ha (Option.not_mem_none a)
  | cons t ts ih =>
    obtain ⟨-, rest, -, h⟩ := h
    cases ts with
    | nil =>
      cases h
      rintro _ ⟨⟩
      rfl
    | cons t' ts =>
      rw [List.getLast?_cons_cons]
      exact ih h

/-- What has been passed is in the text, in front of what is left. -/
theorem Passes.before {ts : List Token} (h : s.Passes ts u) (hbefore : s.rest.Pairwise Token.Before) :
    u.rest.Pairwise Token.Before ∧ ∀ a ∈ ts, a ∈ s.rest ∧ ∀ t ∈ u.rest, a.Before t := by
  obtain ⟨text, htext, hwritten⟩ := h.written
  rw [htext, List.pairwise_append] at hbefore
  refine ⟨hbefore.2.1, fun a ha => ?_⟩
  rw [← hwritten.filter] at ha
  have hmem := List.mem_of_mem_filter ha
  exact ⟨by rw [htext]; exact List.mem_append_left _ hmem, hbefore.2.2 a hmem⟩

/-- Behind a real token with which a line may end, the next line starts below that token or meets it. -/
theorem Reads.below_or_meets {ends : Cursor → Prop} {p q : Line} {lines : List Line} {a : Token}
    (hq : q.Proper) (h : s.Reads ends (q :: lines) u) (hmay : Reading.MayEnd s)
    (ha : a ∈ p.tokens.getLast?) (hline : s.lastLine = a.line) (hreal : a.isIndentation = false)
    (hstands : a.Stands) (hbefore : s.rest.Pairwise Token.Before) (hall : ∀ t ∈ s.rest, a.Before t) :
    p.Below q ∨ p.Meets q := by
  obtain ⟨hholds, m, hpass, -⟩ := h
  obtain ⟨b, bs, hb, -⟩ := hq.head
  have hhead : b ∈ q.tokens.head? := by rw [hb]; rfl
  rw [hb] at hpass
  obtain ⟨hbreal, rest, hbegun, -⟩ := hpass
  have hdrop : s.rest.dropWhile Token.isIndentation = b :: rest := (lineRun_snd s.rest).symm.trans hbegun
  have hrest : s.rest = s.rest.takeWhile Token.isIndentation ++ b :: rest := by
    rw [← hdrop, List.takeWhile_append_dropWhile]
  cases hblanks : s.rest.takeWhile Token.isIndentation with
  | nil =>
    -- nothing is in front of the line, so the reader compared its line with the one on which the token starts
    rw [hblanks, List.nil_append] at hrest
    have hne : b.line ≠ a.line := by
      rw [← hline]
      exact hmay b (by rw [hrest]; rfl) hbreal
    have hle := (hall b (by rw [hrest]; exact List.mem_cons_self)).le
    have hstart := a.line_le_endLine
    by_cases hlt : a.endLine < b.line
    · exact Or.inl ⟨a, ha, b, hhead, hlt⟩
    · have hlines : a.line < a.endLine := by omega
      have hrun : lineRun s.rest = ([], b :: rest) := by
        rw [hrest]
        exact lineRun_of_real hbreal rest
      have hwidth := hholds.length
      rw [hrun] at hwidth
      exact Or.inr ⟨hwidth.symm, a, ha, b, hhead, hstands.kind_eq_string hlines, hlines, by omega⟩
  | cons t blanks =>
    -- indentation is below the token, and the line is not above the indentation
    have hindent : t.isIndentation = true := by
      apply List.mem_takeWhile_imp (p := Token.isIndentation) (l := s.rest)
      rw [hblanks]
      exact List.mem_cons_self
    rw [hblanks, List.cons_append] at hrest
    have hat := hall t (by rw [hrest]; exact List.mem_cons_self)
    have hbelow : a.endLine < t.line := by
      rcases hat.indentation hindent with hindent' | hlt
      · rw [hreal] at hindent'
        cases hindent'
      · exact hlt
    rw [hrest] at hbefore
    have htb := ((List.pairwise_cons.1 hbefore).1 b (List.mem_append_right _ List.mem_cons_self)).le
    have := t.line_le_endLine
    exact Or.inl ⟨a, ha, b, hhead, by omega⟩

/-- Lines that are read, each to where it may end, start one below the other or meet. -/
theorem Reads.chain {lines : List Line} (hlines : ∀ line ∈ lines, line.Proper)
    (h : s.Reads Reading.MayEnd lines u) (hstands : ∀ t ∈ s.rest, t.Stands)
    (hbefore : s.rest.Pairwise Token.Before) : lines.IsChain fun p q => p.Below q ∨ p.Meets q := by
  induction lines generalizing s with
  | nil => exact .nil
  | cons p lines ih =>
    obtain ⟨hp, hlines⟩ := List.forall_mem_cons.1 hlines
    obtain ⟨-, m, hpass, hmay, h⟩ := h
    have hbegun : s.begun.rest.Pairwise Token.Before := hbefore.sublist (lineRun_snd_suffix s.rest).sublist
    obtain ⟨hrest, hall⟩ := hpass.before hbegun
    have hsuffix : m.rest <:+ s.rest := hpass.leads.rest.trans (lineRun_snd_suffix s.rest)
    have hnext := ih hlines h (fun t ht => hstands t (hsuffix.mem ht)) hrest
    cases lines with
    | nil => exact .singleton p
    | cons q lines =>
      refine .cons_cons ?_ hnext
      obtain ⟨t, ts, hts, -⟩ := hp.head
      have hne : p.tokens ≠ [] := by rw [hts]; nofun
      obtain ⟨a, ha⟩ : ∃ a, p.tokens.getLast? = some a := ⟨_, List.getLast?_eq_some_getLast hne⟩
      have hmem := List.mem_of_getLast? ha
      obtain ⟨harest, habefore⟩ := hall a hmem
      exact Reads.below_or_meets (hlines q List.mem_cons_self) h hmay ha (hpass.lastLine a ha)
        (hp.balanced.real a hmem) (hstands a ((lineRun_snd_suffix s.rest).mem harest)) hrest habefore

end Cursor

namespace Reading

open Step

/-! ## Something behind a statement on its line -/

/-- A statement is accepted where its line may end; if a real token is on the line of the token consumed last, that
is reported and the statement is given up. -/
theorem declaration_of_statement {fuel : Nat} {s m : Cursor} {stmt : Stmt Unit}
    (hline : s.layout.continues (lineRun s.rest).1 = true)
    (hstatement : statement (fuel + 1) (declaration fuel) s.begun = .ok stmt m) :
    (MayEnd m → declaration (fuel + 1) s = .ok stmt m) ∧
    ∀ t ∈ m.rest.head?, t.isIndentation = false → t.line = m.lastLine →
      declaration (fuel + 1) s = .ok .nothing (m.complain t (.expected "line break after statement")).recover := by
  have hbegin : beginLine s = .ok () s.begun := if_pos hline
  have hdeclaration : ∀ r, (endStatement >>= fun _ => pure stmt) m = r →
      declaration (fuel + 1) s = recovering (fun _ => r) .nothing s := by
    rintro r rfl
    have hall : statementLine (fuel + 1) (declaration fuel) s = (endStatement >>= fun _ => pure stmt) m :=
      (bind_of_ok hbegin).trans (bind_of_ok hstatement)
    show recovering (statementLine (fuel + 1) (declaration fuel)) .nothing s = _
    unfold recovering
    rw [hall]
  constructor
  · intro hmay
    have hend : endStatement m = .ok () m := by
      unfold endStatement
      cases hrest : m.rest with
      | nil => rfl
      | cons t rest =>
        have ht := hmay t (by rw [hrest]; rfl)
        cases hindent : t.isIndentation with
        | true => simp [hindent]
        | false => simp [hindent, ht hindent]
    exact hdeclaration _ (bind_of_ok hend)
  · intro t ht hreal hsame
    obtain ⟨rest, hrest⟩ := List.head?_eq_some_iff.1 ht
    have hend : endStatement m = .error ⟨⟩ (m.complain t (.expected "line break after statement")) := by
      unfold endStatement
      rw [hrest]
      simp [hreal, hsame]
    exact hdeclaration _ (bind_of_error hend)

example : (Program.read 255 (Token.scan "print a print b").stream).reports.map Report.problem =
    [.expected "line break after statement"] := by
  decide +kernel

end Reading

/-! ## The lines of a text -/

namespace Grammar

open Reading

/-- **Statements on lines of their own.**  Take a text that is read without a report.  The lines of its program, which
are its statements, the methods of its classes and the alternatives of its branches, start each below the line of the
text on which the one before it ends, with one exception: a line that ends in a string over several lines may be
followed by one at the margin on the last line of that string.  Else a statement that is followed by something on the
line on which its last token starts is given up, and the missing line break is reported. -/
theorem starts_below {argumentLimit : Nat} {source : String}
    (h : (Program.read argumentLimit (Token.scan source).stream).reports = []) :
    (∃ lines, Statements argumentLimit .top
        (Program.read argumentLimit (Token.scan source).stream).statements lines ∧
      Laid lines (Token.scan source).stream.tokens ∧ lines.IsChain fun p q => p.Below q ∨ p.Meets q) ∧
    ∀ fuel s stmt m, s.layout.continues (lineRun s.rest).1 = true →
      statement (fuel + 1) (declaration fuel) s.begun = .ok stmt m →
      ∀ t ∈ m.rest.head?, t.isIndentation = false → t.line = m.lastLine →
        declaration (fuel + 1) s = .ok .nothing (m.complain t (.expected "line break after statement")).recover := by
  obtain ⟨lines, u, hstatements, hreads, hend⟩ := reads_of_read h
  have hwritable := Token.writable_scan source
  refine ⟨⟨lines, hstatements, hreads.laid hstatements.proper rfl hend, ?_⟩, ?_⟩
  · exact hreads.chain hstatements.proper hwritable.stands hwritable.before
  · intro fuel s stmt m hline hstatement
    exact (declaration_of_statement hline hstatement).2

/-- A string over two lines in a block, and an alternative. -/
def stringText : String :=
  "if a:\n  print \"b\nc\"\nelse:\n  print d"

theorem starts_below_stringText :
    (Program.read 255 (Token.scan stringText).stream).reports = [] ∧
    ∃ lines, Statements 255 .top (Program.read 255 (Token.scan stringText).stream).statements lines ∧
      Laid lines (Token.scan stringText).stream.tokens ∧ lines.IsChain fun p q => p.Below q ∨ p.Meets q := by
  have h : (Program.read 255 (Token.scan stringText).stream).reports = [] :=
    List.isEmpty_iff.1 (by decide +kernel)
  exact ⟨h, (starts_below h).1⟩

/-- Two statements, the second one on the last line of a string in the first one. -/
def sharedText : String :=
  "print \"a\nb\" print 2"

/-- Whether the statements are two that print. -/
def isPrintPair : List (Stmt Unit) → Bool
  | [.print _, .print _] => true
  | _ => false

theorem eq_of_isPrintPair {ss : List (Stmt Unit)} (h : isPrintPair ss = true) :
    ∃ e e', ss = [.print e, .print e'] := by
  unfold isPrintPair at h
  split at h
  · exact ⟨_, _, rfl⟩
  · cases h

/-- Two statements share a line of the text, and nothing is reported. -/
theorem meets_sharedText :
    (Token.scan sharedText).reports = [] ∧
    (Program.read 255 (Token.scan sharedText).stream).reports = [] ∧
    ¬ ∃ lines, Statements 255 .top (Program.read 255 (Token.scan sharedText).stream).statements lines ∧
      Laid lines (Token.scan sharedText).stream.tokens ∧ lines.IsChain Line.Below := by
  refine ⟨List.isEmpty_iff.1 (by decide +kernel), List.isEmpty_iff.1 (by decide +kernel), ?_⟩
  rintro ⟨lines, hstatements, hlaid, hchain⟩
  have hpair : isPrintPair (Program.read 255 (Token.scan sharedText).stream).statements = true := by
    decide +kernel
  obtain ⟨e, e', hprints⟩ := eq_of_isPrintPair hpair
  rw [hprints] at hstatements
  obtain ⟨p, q, rfl, hword⟩ : ∃ p q : Line, lines = [p, q] ∧ ∃ word ts, q.tokens = word :: ts ∧
      word.kind = .printWord := by
    cases hstatements with
    | cons hfirst hrest =>
      cases hrest with
      | cons hsecond hnone =>
        cases hnone
        obtain ⟨_, _, rfl, -⟩ := hfirst.line_of_print
        obtain ⟨word, ts, rfl, hword⟩ := hsecond.line_of_print
        exact ⟨_, _, rfl, word, ts, rfl, hword⟩
  obtain ⟨word, ts, hq, hkind⟩ := hword
  obtain ⟨a, ha, b, hb, hlt⟩ := (List.isChain_cons_cons.1 hchain).1
  rw [hq] at hb
  obtain rfl : word = b := Option.some.inj hb
  obtain ⟨front, hp⟩ := List.getLast?_eq_some_iff.1 ha
  have hreal : ((Token.scan sharedText).stream.tokens.filter fun t => !t.isIndentation).map
      (fun t => (t.kind, t.line, t.endLine)) =
      [(.printWord, 1, 1), (.string, 1, 2), (.printWord, 2, 2), (.number, 2, 2)] := by
    decide +kernel
  have hlines : [p, q].flatMap Line.tokens = front ++ a :: word :: ts := by
    simp [hp, hq]
  rw [hlaid.filter, hlines] at hreal
  have hlength := congrArg List.length hreal
  -- the keyword of the second statement is the third token, so the string is in front of it
  rcases front with _ | ⟨first, _ | ⟨second, _ | ⟨third, front⟩⟩⟩
  · simp [hkind] at hreal
  · simp at hreal
    omega
  · simp [hkind] at hreal
  · simp at hlength
    omega

end Grammar
end Offside
