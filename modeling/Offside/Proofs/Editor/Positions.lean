import Offside.Editor
import Offside.Proofs.Binding.Provenance
import Offside.Proofs.Reader.Complaints
import Offside.Proofs.Token.Tiling

/-!
# Places in a document

What an editor shows about a text lies inside the text.  Every report of the phases before a run, from whichever of
them, is at a token, at the end or at a character of the text, and so on one of its lines; no mark has to be moved to
the first line.  Every symbol stands on the line on which its name is written.

* `Span.LiesIn` — where the tokens of a text stand in it;
* `Editor.HasLine`, `Editor.Names` — lines of a text, counted from zero, and the names on them;
* `Editor.onLine_log` — the reports about a text;
* `Editor.update_places` — marks and symbols of a document.
-/

set_option autoImplicit false

namespace Offside

namespace Token

/-! ## Where tokens and characters stand -/

/-- The span is a part of a text. -/
def Span.LiesIn (s : Span) (cs : List Char) : Prop :=
  ∃ after, cs = s.before ++ s.text ++ after

theorem Span.LiesIn.append {s : Span} {cs : List Char} (h : s.LiesIn cs) (more : List Char) : s.LiesIn (cs ++ more) := by
  obtain ⟨after, rfl⟩ := h
  exact ⟨after ++ more, List.append_assoc _ _ _⟩

theorem liesIn_of_mem_blankSpans {before cs : List Char} {s : Span} (h : s ∈ blankSpans before cs) :
    s.LiesIn (before ++ cs) := by
  induction cs generalizing before with
  | nil => cases h
  | cons c cs ih =>
    rcases List.mem_cons.1 h with rfl | h
    · exact ⟨cs, (List.append_assoc before [c] cs).symm⟩
    · rw [List.append_cons]
      exact ih h

theorem Piece.liesIn_of_mem_spans {before : List Char} {p : Piece} {s : Span} (h : s ∈ p.spans before) :
    s.LiesIn (before ++ p.text) := by
  unfold Piece.spans at h
  split at h
  · exact liesIn_of_mem_blankSpans h
  · obtain ⟨kind, -, rfl⟩ := List.mem_map.1 h
    exact ⟨[], (List.append_nil _).symm⟩

/-- The spans of a text are parts of it. -/
theorem liesIn_of_mem_spans {before : List Char} {ps : List Piece} {s : Span} (h : s ∈ spans before ps) :
    s.LiesIn (before ++ ps.flatMap Piece.text) := by
  induction ps generalizing before with
  | nil => cases h
  | cons p ps ih =>
    rw [List.flatMap_cons, ← List.append_assoc]
    rcases List.mem_append.1 h with h | h
    · exact (Piece.liesIn_of_mem_spans h).append _
    · exact ih h

/-- So is what stands in front of a character that fits nothing. -/
theorem prefix_of_mem_strays {before : List Char} {ps : List Piece} {q : List Char × Char}
    (h : q ∈ strays before ps) : q.1 <+: before ++ ps.flatMap Piece.text := by
  induction ps generalizing before with
  | nil => cases h
  | cons p ps ih =>
    rcases List.mem_append.1 h with h | h
    · split at h
      · obtain ⟨c, -, rfl⟩ := List.mem_map.1 h
        exact List.prefix_append _ _
      · cases h
    · rw [List.flatMap_cons, ← List.append_assoc]
      exact ih h

/-! ## Lines -/

/-- A line of a text, counted from one. -/
def IsLineOf (cs : List Char) (line : Int) : Prop :=
  1 ≤ line ∧ line ≤ lineBehind cs

theorem isLineOf_of_front {before cs : List Char} (h : before <+: cs) : IsLineOf cs (lineBehind before) := by
  obtain ⟨after, rfl⟩ := h
  have hbehind := lineBehind_append before after
  simp only [IsLineOf, lineBehind, Int.ofNat_eq_natCast] at hbehind ⊢
  omega

theorem isLineOf_lineBehind (cs : List Char) : IsLineOf cs (lineBehind cs) :=
  isLineOf_of_front (List.prefix_refl cs)

variable {text : String}

/-- A token of a text shows a span of it. -/
theorem exists_span_of_mem {t : Token} (h : t ∈ (scan text).stream.tokens) :
    ∃ s : Span, s.LiesIn text.toList ∧ s.Shows t := by
  obtain ⟨hfit, htext⟩ := (Piece.tiles_iff text.toList (Piece.split text.toList)).2 rfl
  have hshows : List.Forall₂ Span.Shows (spans [] (Piece.split text.toList)) (scan text).stream.tokens :=
    shows_placed hfit
  obtain ⟨i, hi, rfl⟩ := List.getElem_of_mem h
  have hlt : i < (spans [] (Piece.split text.toList)).length := by
    rw [hshows.length_eq]
    exact hi
  have hlies := liesIn_of_mem_spans (List.getElem_mem hlt)
  rw [List.nil_append, htext] at hlies
  exact ⟨_, hlies, (List.forall₂_iff_get.1 hshows).2 i hlt hi⟩

theorem isLineOf_of_mem_tokens {t : Token} (h : t ∈ (scan text).stream.tokens) : IsLineOf text.toList t.line := by
  obtain ⟨s, ⟨after, hlies⟩, hshows⟩ := exists_span_of_mem h
  rw [hshows.line]
  apply isLineOf_of_front
  rw [hlies, List.append_assoc]
  exact List.prefix_append _ _

/-- The tokens of a text, its end among them, stand on its lines. -/
theorem isLineOf_of_mem_toList {t : Token} (h : t ∈ (scan text).stream.toList) : IsLineOf text.toList t.line := by
  rcases List.mem_append.1 h with h | h
  · exact isLineOf_of_mem_tokens h
  · obtain rfl := List.mem_singleton.1 h
    exact isLineOf_lineBehind text.toList

end Token

/-! ## Reports -/

/-- A report from before a run, on a line of the text. -/
def Report.OnLineOf (cs : List Char) (r : Report) : Prop :=
  r.stage = .compile ∧ ∃ line, r.line = some line ∧ Token.IsLineOf cs line

theorem Report.onLineOf_onLine {cs : List Char} {line : Int} (h : Token.IsLineOf cs line) (problem : Problem) :
    (Report.onLine (some line) problem).OnLineOf cs :=
  ⟨rfl, line, rfl, h⟩

theorem Report.onLineOf_atToken {cs : List Char} {t : Token} (h : Token.IsLineOf cs t.line) (problem : Problem) :
    (Report.atToken t problem).OnLineOf cs :=
  ⟨rfl, t.line, rfl, h⟩

/-- The reports of reading tokens: characters that fit nothing, and a string that is still open at the end. -/
theorem Token.onLineOf_reports {text : String} {r : Report} (h : r ∈ (Token.scan text).reports) :
    r.OnLineOf text.toList := by
  obtain ⟨hfit, htext⟩ := (Piece.tiles_iff text.toList (Piece.split text.toList)).2 rfl
  have hstray : r ∈ strayReports [] (Piece.split text.toList) → r.OnLineOf text.toList := by
    intro hr
    obtain ⟨q, hq, rfl⟩ := List.mem_map.1 hr
    have hfront := prefix_of_mem_strays (List.mem_filter.1 hq).1
    rw [List.nil_append, htext] at hfront
    exact Report.onLineOf_onLine (isLineOf_of_front hfront) _
  have hreports := problems_placed hfit
  rw [List.nil_append, htext] at hreports
  rcases hreports with ⟨-, hreports⟩ | ⟨front, p, -, -, -, hreports⟩
  · exact hstray (hreports ▸ h)
  · have hr : r ∈ strayReports [] (Piece.split text.toList) ++
        [Report.onLine (some (lineBehind text.toList)) .unterminatedString] := hreports ▸ h
    rcases List.mem_append.1 hr with hr | hr
    · exact hstray hr
    · obtain rfl := List.mem_singleton.1 hr
      exact Report.onLineOf_onLine (isLineOf_lineBehind text.toList) _

namespace Editor

/-- The tree of a text, with its errors passed over, is bound to the end. -/
theorem bound_checked (text : String) :
    (∃ bound, (Binding.program [] (Checked.ofSource text).statements).result = .ok bound) ∧
      ∀ r ∈ (Binding.program [] (Checked.ofSource text).statements).reports,
        r.Stands (· ∈ (Token.scan text).stream.tokens) :=
  Binding.stands_program [] (Program.drawn_of_read Program.argumentLimit (Token.scan text).stream)

/-- Every phase reports on lines of the text: tokens at their characters, statements at a token or at the end, names
at their tokens. -/
theorem onLine_log {text : String} {r : Report} (h : r ∈ (Checked.ofSource text).log) : r.OnLineOf text.toList := by
  rcases List.mem_append.1 h with h | h
  · rcases List.mem_append.1 h with h | h
    · exact Token.onLineOf_reports h
    · obtain ⟨t, problem, ht, -, rfl⟩ := Program.cites_of_read h
      exact Report.onLineOf_atToken (Token.isLineOf_of_mem_toList ht) problem
  · obtain ⟨t, problem, ht, rfl⟩ := (bound_checked text).2 r h
    exact Report.onLineOf_atToken (Token.isLineOf_of_mem_tokens ht) problem

/-! ## Marks -/

/-- A line of a text, counted from zero: none below the last of the line feeds. -/
def HasLine (text : String) (line : Int) : Prop :=
  0 ≤ line ∧ line ≤ Int.ofNat (text.toList.count '\n')

theorem hasLine_of_isLineOf {text : String} {line : Int} (h : Token.IsLineOf text.toList line) :
    HasLine text (line - 1) := by
  simp only [Token.IsLineOf, Token.lineBehind] at h
  simp only [HasLine]
  omega

/-- A mark shows a report on the line of the report itself, which is a line of the text. -/
structure Mark.Places (text : String) (r : Report) (m : Mark) : Prop where
  stage : r.stage = .compile
  line : r.line = some (m.line + 1)
  inside : HasLine text m.line
  message : m.message =
    match r.place with
    | .somewhere => r.message
    | place => "Error" ++ place.text ++ ": " ++ r.message

/-- The line of a report on a line of the text is not moved. -/
theorem exists_mark_of_onLineOf {text : String} {r : Report} (h : r.OnLineOf text.toList) :
    ∃ m, Mark.ofReport? r = some m ∧ m.Places text r := by
  obtain ⟨hstage, line, hline, hinside⟩ := h
  have hkept : markLine r.line = line - 1 := by
    have hfirst := hinside.1
    simp only [hline, markLine]
    omega
  have hmark : ∃ message, Mark.ofReport? r = some ⟨line - 1, message⟩ ∧ message =
      match r.place with
      | .somewhere => r.message
      | place => "Error" ++ place.text ++ ": " ++ r.message := by
    rw [Mark.ofReport?, hstage, ← hkept]
    exact ⟨_, rfl, rfl⟩
  obtain ⟨message, hsome, hmessage⟩ := hmark
  refine ⟨_, hsome, hstage, ?_, hasLine_of_isLineOf hinside, hmessage⟩
  rw [hline, Int.sub_add_cancel]

theorem places_marks {text : String} {log : Log} (h : ∀ r ∈ log, r.OnLineOf text.toList) :
    List.Forall₂ (fun r m => Mark.Places text r m) log (marks log) := by
  induction log with
  | nil => exact .nil
  | cons r log ih =>
    obtain ⟨m, hm, hplaces⟩ := exists_mark_of_onLineOf (h r List.mem_cons_self)
    have hmarks : marks (r :: log) = m :: marks log := List.filterMap_cons_some hm
    rw [hmarks]
    exact .cons hplaces (ih fun q hq => h q (List.mem_cons_of_mem r hq))

/-! ## Symbols -/

/-- The name is an identifier of the text on this line, counted from zero, and its characters stand there. -/
def Names (text name : String) (line : Int) : Prop :=
  ∃ t ∈ (Token.scan text).stream.tokens, t.kind = .identifier ∧ t.lexeme = name ∧ t.line = line + 1 ∧
    ∃ before after, text.toList = before ++ name.toList ++ after ∧ Token.lineBehind before = line + 1

/-- A symbol of a document stands on a line on which its name is. -/
structure Symbol.Stands (uri text : String) (s : Symbol) : Prop where
  uri : s.uri = uri
  inside : HasLine text s.line
  names : Names text s.name s.line

theorem stands_symbolAt {text : String} {t : Token} (h : t.Names (· ∈ (Token.scan text).stream.tokens))
    (uri : String) (kind : Symbol.Kind) (detail : String) : (symbolAt uri kind t detail).Stands uri text := by
  obtain ⟨ht, hkind⟩ := h
  obtain ⟨s, ⟨after, hlies⟩, hshows⟩ := Token.exists_span_of_mem ht
  have hline : t.line = t.line - 1 + 1 := (Int.sub_add_cancel _ _).symm
  refine ⟨rfl, hasLine_of_isLineOf (Token.isLineOf_of_mem_tokens ht), t, ht, hkind, rfl, hline,
    s.before, after, ?_, ?_⟩
  · rw [hlies, ← hshows.lexeme]
    rfl
  · rw [← hshows.line]
    exact hline

/-- So do a symbol and its methods. -/
def Outline.Stands (uri text : String) (o : Outline) : Prop :=
  ∀ symbol ∈ o.symbol :: o.methods, symbol.Stands uri text

/-- The symbols of statements that are made of the tokens of a text. -/
theorem stands_outlinesFrom {text : String} (uri : String) (seen : List String) {statements : List (Stmt Unit)}
    (h : Stmt.DrawnAll (· ∈ (Token.scan text).stream.tokens) statements) :
    ∀ outline ∈ outlinesFrom uri seen statements, outline.Stands uri text := by
  intro outline houtline
  fun_induction outlinesFrom uri seen statements with
  | case1 => cases houtline
  | case2 seen name superclass methods more ih =>
    obtain ⟨⟨hname, -, hmethods⟩, hmore⟩ := h
    rcases List.mem_cons.1 houtline with rfl | houtline
    · intro symbol hsymbol
      rcases List.mem_cons.1 hsymbol with rfl | hsymbol
      · exact stands_symbolAt hname _ _ _
      · obtain ⟨r, hr, rfl⟩ := List.mem_map.1 hsymbol
        exact stands_symbolAt (Routine.drawnAll_iff.1 hmethods r hr).name _ _ _
    · exact ih hmore houtline
  | case3 seen r more ih =>
    obtain ⟨hr, hmore⟩ := h
    rcases List.mem_cons.1 houtline with rfl | houtline
    · exact List.forall_mem_singleton.2 (stands_symbolAt hr.name _ _ _)
    · exact ih hmore houtline
  | case4 seen name value info more hseen ih => exact ih h.2 houtline
  | case5 seen name value info more hseen ih =>
    obtain ⟨⟨hname, -⟩, hmore⟩ := h
    rcases List.mem_cons.1 houtline with rfl | houtline
    · exact List.forall_mem_singleton.2 (stands_symbolAt hname _ _ _)
    · exact ih hmore houtline
  | case6 seen s more _ _ _ ih => exact ih h.2 houtline

/-! ## Documents -/

/-- **What an editor shows lies inside the document.**  Whatever errors a text has, the phases before a run all go to
their ends.  The marks are the reports of these phases, each once and in their order, and each on its own line: from
the first line, zero, to the last, the number of the line feeds.  Every symbol that is put into the index, methods
too, is on such a line, and its name is an identifier that is written on this line. -/
theorem update_places (e : Editor) (uri text : String) :
    (∃ bound, (Binding.program [] (Checked.ofSource text).statements).result = .ok bound) ∧
    List.Forall₂ (fun r m => Mark.Places text r m) (Checked.ofSource text).log (e.update uri text).2 ∧
    ∀ outline ∈ (e.update uri text).1.symbols uri, outline.Stands uri text := by
  refine ⟨(bound_checked text).1, places_marks fun r hr => onLine_log hr, ?_⟩
  have hsymbols : (e.update uri text).1.symbols uri = outlines uri (Checked.ofSource text).statements := by
    simp only [update, symbols, Bindings.get?_put_self, Option.getD_some]
  rw [hsymbols]
  exact stands_outlinesFrom uri [] (Program.drawn_of_read Program.argumentLimit (Token.scan text).stream)

end Editor
end Offside
