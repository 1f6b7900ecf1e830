import Mathlib.Data.List.Forall2
import Offside.Proofs.Token.Fitting
import Offside.Token.Lexer

/-!
# Tokens tile the text

The pieces of a text lie one behind the other and leave nothing out.  Tokens are what some of them show: every
leading blank of a line, every number, string, word and sign, each with its own characters and on the line on
which it starts.  Every other character is in a line break, a gap or a comment, or there is a report about it.

* `Span`, `spans` — the places of a text at which tokens stand;
* `margin` — a line that does not start inside a string starts with its leading blanks;
* `Scan.Tells`, `scan_tells` — the tokens and the reports of a text are those of its tiling.
-/

set_option autoImplicit false

namespace Offside.Token

open Piece (Tiles Fits AtLineStart)

/-! ## Where tokens stand -/

/-- The line of the character behind a text. -/
def lineBehind (before : List Char) : Int :=
  1 + Int.ofNat (before.count '\n')

/-- A part of a text that makes a token: what is in front of it, its characters and the kind of the token. -/
structure Span where
  before : List Char
  text : List Char
  kind : Kind

/-- The spans of single blanks. -/
def blankSpans (before : List Char) : List Char → List Span
  | [] => []
  | c :: cs => ⟨before, [c], if c = ' ' then .space else .tab⟩ :: blankSpans (before ++ [c]) cs

/-- The kind of the token that is a whole piece. -/
def Piece.kind? (p : Piece) : Option Kind :=
  match p.form with
  | .number => some .number
  | .string => some .string
  | .word => some (.ofWord (String.ofList p.text))
  | .sign kind => some kind
  | _ => none

/-- The spans of a piece. -/
def Piece.spans (before : List Char) (p : Piece) : List Span :=
  if p.form = .indentation then blankSpans before p.text
  else p.kind?.toList.map fun kind => ⟨before, p.text, kind⟩

/-- The spans of a text that is made up of pieces. -/
def spans (before : List Char) : List Piece → List Span
  | [] => []
  | p :: ps => p.spans before ++ spans (before ++ p.text) ps

/-- The token of a span. -/
structure Span.Shows (s : Span) (t : Token) : Prop where
  kind : t.kind = s.kind
  lexeme : t.lexeme.toList = s.text
  line : t.line = lineBehind s.before

/-- The characters that fit nothing, each with what is in front of it. -/
def strays (before : List Char) : List Piece → List (List Char × Char)
  | [] => []
  | p :: ps => (if p.form = .stray then p.text.map (before, ·) else []) ++ strays (before ++ p.text) ps

/-- The report about a character that fits nothing. -/
def strayReport (q : List Char × Char) : Report :=
  Report.onLine (some (lineBehind q.1)) (.unexpectedCharacter q.2)

/-- The reports about the characters of a text that fit nothing; the null character is passed over. -/
def strayReports (before : List Char) (ps : List Piece) : List Report :=
  ((strays before ps).filter fun q => q.2 != '\x00').map strayReport

/-- The text that stands behind `before` starts inside a string, which may never be closed. -/
def InString (pieces : List Piece) (before : List Char) : Prop :=
  ∃ front p back x y, pieces = front ++ p :: back ∧ (p.form = .string ∨ p.form = .openString) ∧
    p.text = x ++ y ∧ x ≠ [] ∧ y ≠ [] ∧ before = front.flatMap Piece.text ++ x

/-- How a text is read: its pieces are the only ones that fit, tokens and reports follow from them. -/
structure Scan.Tells (s : Scan) (cs : List Char) (pieces : List Piece) : Prop where
  fit : Tiles [] pieces
  text : pieces.flatMap Piece.text = cs
  only : ∀ others, Tiles [] others → others.flatMap Piece.text = cs → others = pieces
  /-- A line outside strings starts with the piece of its leading blanks, if there are any. -/
  margin : ∀ before after, cs = before ++ after → AtLineStart before → InString pieces before ∨
    ∃ front back, pieces = front ++ back ∧ front.flatMap Piece.text = before ∧
      (after.takeWhile Piece.isIndent ≠ [] → back.head? = some ⟨.indentation, after.takeWhile Piece.isIndent⟩)
  tokens : List.Forall₂ Span.Shows (spans [] pieces) s.stream.tokens
  endLine : s.stream.endLine = lineBehind cs
  /-- At most the last piece is a string that is not closed, and the report about it is the last one. -/
  reports :
    (∀ p ∈ pieces, p.form ≠ .openString) ∧ s.reports = strayReports [] pieces ∨
    ∃ front p, pieces = front ++ [p] ∧ p.form = .openString ∧ (∀ q ∈ front, q.form ≠ .openString) ∧
      s.reports = strayReports [] pieces ++ [Report.onLine (some s.stream.endLine) .unterminatedString]

/-! ## Lines -/

theorem lineBehind_append (before cs : List Char) :
    lineBehind (before ++ cs) = lineBehind before + Int.ofNat (cs.count '\n') := by
  simp only [lineBehind, List.count_append, Int.ofNat_eq_natCast]
  omega

theorem lineBehind_piece (before : List Char) (p : Piece) :
    lineBehind (before ++ p.text) = lineBehind before + Int.ofNat p.breaks :=
  lineBehind_append before p.text

/-! ## Tokens of pieces -/

theorem shows_blanks {before cs : List Char} (h : ∀ c ∈ cs, Piece.isIndent c = true) :
    List.Forall₂ Span.Shows (blankSpans before cs) (cs.map (ofBlank (lineBehind before))) := by
  induction cs generalizing before with
  | nil => exact .nil
  | cons c cs ih =>
    have hline : lineBehind (before ++ [c]) = lineBehind before := by
      have hc : c ≠ '\n' := by
        rintro rfl
        cases h '\n' List.mem_cons_self
      rw [lineBehind_append, List.count_singleton, if_neg (by simpa using hc)]
      exact Int.add_zero _
    have hcs : List.Forall₂ Span.Shows (blankSpans (before ++ [c]) cs)
        (cs.map (ofBlank (lineBehind (before ++ [c])))) :=
      ih fun d hd => h d (List.mem_cons_of_mem c hd)
    rw [hline] at hcs
    exact .cons ⟨rfl, String.toList_singleton c, rfl⟩ hcs

/-- A piece that fits makes the tokens of its spans. -/
theorem shows_ofPiece {before after : List Char} {p : Piece} (h : Fits before p after) :
    List.Forall₂ Span.Shows (p.spans before) (ofPiece (lineBehind before) p) := by
  cases h with
  | indentation _ hrun _ => exact shows_blanks hrun
  | lineBreak | gap | comment | openString | stray => exact .nil
  | whole | fraction | string | word | pair | single =>
    exact .cons ⟨rfl, String.toList_ofList, rfl⟩ .nil

theorem shows_placed {before : List Char} {ps : List Piece} (h : Tiles before ps) :
    List.Forall₂ Span.Shows (spans before ps)
      ((placed (lineBehind before) ps).flatMap fun q => ofPiece q.1 q.2) := by
  induction ps generalizing before with
  | nil => exact .nil
  | cons p ps ih =>
    have hps := ih h.2
    rw [lineBehind_piece] at hps
    exact List.rel_append (shows_ofPiece h.1) hps

/-! ## Reports of pieces -/

theorem problemsOf_of_closed {before : List Char} {p : Piece} (h : p.form ≠ .openString) (ps : List Piece) :
    problemsOf (lineBehind before) p ++ strayReports (before ++ p.text) ps = strayReports before (p :: ps) := by
  simp only [strayReports, strays, List.filter_append, List.map_append]
  congr 1
  unfold problemsOf
  split
  · next hform =>
    rw [if_pos hform, List.filter_map, List.map_map]
    rfl
  · next hform => exact absurd hform h
  · next hform _ =>
    rw [if_neg hform]
    rfl

theorem eq_nil_of_tiles {before : List Char} {ps : List Piece} (h : Tiles before ps)
    (hnil : ps.flatMap Piece.text = []) : ps = [] := by
  cases ps with
  | nil => rfl
  | cons p ps => exact absurd (List.append_eq_nil_iff.1 hnil).1 h.1.text_ne_nil

theorem Piece.Fits.after_eq_nil {before after : List Char} {p : Piece} (h : Fits before p after)
    (hform : p.form = .openString) : after = [] := by
  cases h with
  | openString => rfl
  | _ => cases hform

/-- The reports about pieces that fit: those about characters, and one about a string that is not closed. -/
theorem problems_placed {before : List Char} {ps : List Piece} (h : Tiles before ps) :
    let problems := (placed (lineBehind before) ps).flatMap fun q => problemsOf q.1 q.2
    (∀ p ∈ ps, p.form ≠ .openString) ∧ problems = strayReports before ps ∨
      ∃ front p, ps = front ++ [p] ∧ p.form = .openString ∧ (∀ q ∈ front, q.form ≠ .openString) ∧
        problems = strayReports before ps ++
          [Report.onLine (some (lineBehind (before ++ ps.flatMap Piece.text))) .unterminatedString] := by
  induction ps generalizing before with
  | nil => exact Or.inl ⟨nofun, rfl⟩
  | cons p ps ih =>
    obtain ⟨hfits, htiles⟩ := h
    simp only [placed, List.flatMap_cons, ← lineBehind_piece]
    by_cases hform : p.form = .openString
    · -- nothing can stand behind a string that is not closed
      obtain rfl := eq_nil_of_tiles htiles (hfits.after_eq_nil hform)
      refine Or.inr ⟨[], p, rfl, hform, nofun, ?_⟩
      simp [placed, problemsOf, hform, strayReports, strays, lineBehind_piece]
    · rcases ih htiles with ⟨hclosed, hproblems⟩ | ⟨front, q, rfl, hq, hfront, hproblems⟩
      · refine Or.inl ⟨?_, ?_⟩
        · intro q hq
          rcases List.mem_cons.1 hq with rfl | hq
          · exact hform
          · exact hclosed q hq
        · rw [hproblems, problemsOf_of_closed hform]
      · refine Or.inr ⟨p :: front, q, rfl, hq, ?_, ?_⟩
        · intro r hr
          rcases List.mem_cons.1 hr with rfl | hr
          · exact hform
          · exact hfront r hr
        · rw [hproblems, ← List.append_assoc, problemsOf_of_closed hform, List.append_assoc]

/-! ## Leading blanks -/

/-- At the start of a line the piece of the leading blanks comes first. -/
theorem head?_of_tiles {before after : List Char} {ps : List Piece} (h : Tiles before ps)
    (htext : ps.flatMap Piece.text = after) (hline : AtLineStart before)
    (hblank : after.takeWhile Piece.isIndent ≠ []) :
    ps.head? = some ⟨.indentation, after.takeWhile Piece.isIndent⟩ := by
  cases after with
  | nil => exact absurd rfl hblank
  | cons c cs =>
    cases ps with
    | nil => cases htext
    | cons p ps =>
      have hc : Piece.isIndent c = true := by
        by_contra hc
        exact hblank (List.takeWhile_cons_of_neg hc)
      have hcut := Piece.cut_of_fits ⟨fun _ => hline, fun _ => rfl⟩ h.1 htext
      have hne : c ≠ '\n' := by
        rintro rfl
        cases hc
      rw [Piece.cut, if_neg hne, if_pos (by rw [hc]; rfl)] at hcut
      rw [List.head?_cons, ← (Prod.mk.inj hcut).1, List.takeWhile_cons_of_pos hc]

theorem InString.cons {p : Piece} {ps : List Piece} {before : List Char} (h : InString ps before) :
    InString (p :: ps) (p.text ++ before) := by
  obtain ⟨front, q, back, x, y, rfl, hform, htext, hx, hy, rfl⟩ := h
  exact ⟨p :: front, q, back, x, y, rfl, hform, htext, hx, hy, by simp⟩

/-- A piece with a line feed and something behind it is a string. -/
theorem Piece.Fits.inString {start before after rest : List Char} {p : Piece} (h : Fits start p rest)
    (htext : p.text = before ++ after) (hbefore : before ≠ []) (hafter : after ≠ [])
    (hline : AtLineStart (start ++ before)) (ps : List Piece) : InString (p :: ps) before := by
  have hmem : '\n' ∈ p.text := by
    rcases hline with hnil | hlast
    · exact absurd (List.append_eq_nil_iff.1 hnil).2 hbefore
    · rw [List.getLast?_append] at hlast
      cases hb : before.getLast? with
      | none => exact absurd (List.getLast?_eq_none_iff.1 hb) hbefore
      | some c =>
        rw [hb, Option.some_or] at hlast
        rw [htext, ← Option.some.inj hlast]
        exact List.mem_append_left _ (List.mem_of_getLast? hb)
  have hstring : p.form = .string ∨ p.form = .openString := by
    rcases h.lineFeed_mem hmem with hform | hform
    · have hlength : p.text.length = 1 := by
        cases h with
        | lineBreak => rfl
        | _ => cases hform
      have := List.length_pos_iff.2 hbefore
      have := List.length_pos_iff.2 hafter
      rw [htext, List.length_append] at hlength
      omega
    · exact hform
  exact ⟨[], p, ps, before, after, rfl, hstring, htext, hbefore, hafter, rfl⟩

/-- The start of a line is inside a string, or a piece starts there. -/
theorem margin {start before after : List Char} {ps : List Piece} (h : Tiles start ps)
    (htext : ps.flatMap Piece.text = before ++ after) (hline : AtLineStart (start ++ before)) :
    InString ps before ∨ ∃ front back, ps = front ++ back ∧ front.flatMap Piece.text = before ∧
      (after.takeWhile Piece.isIndent ≠ [] → back.head? = some ⟨.indentation, after.takeWhile Piece.isIndent⟩) := by
  induction ps generalizing start before with
  | nil =>
    obtain ⟨rfl, rfl⟩ := List.append_eq_nil_iff.1 htext.symm
    exact Or.inr ⟨[], [], rfl, rfl, fun hblank => absurd rfl hblank⟩
  | cons p ps ih =>
    by_cases hbefore : before = []
    · subst hbefore
      rw [List.append_nil] at hline
      exact Or.inr ⟨[], p :: ps, rfl, rfl, head?_of_tiles h htext hline⟩
    obtain ⟨hfits, htiles⟩ := h
    have hbehind : ∀ deeper, before = p.text ++ deeper → ps.flatMap Piece.text = deeper ++ after →
        InString (p :: ps) before ∨ ∃ front back, p :: ps = front ++ back ∧ front.flatMap Piece.text = before ∧
          (after.takeWhile Piece.isIndent ≠ [] →
            back.head? = some ⟨.indentation, after.takeWhile Piece.isIndent⟩) := by
      rintro deeper rfl hrest
      rw [← List.append_assoc] at hline
      rcases ih htiles hrest hline with hin | ⟨front, back, rfl, rfl, hhead⟩
      · exact Or.inl hin.cons
      · exact Or.inr ⟨p :: front, back, rfl, rfl, hhead⟩
    rcases List.append_eq_append_iff.1 htext with ⟨deeper, heq, hrest⟩ | ⟨back, heq, hrest⟩
    · exact hbehind deeper heq hrest
    · by_cases hback : back = []
      · subst hback
        exact hbehind [] (by simpa using heq.symm) hrest.symm
      · exact Or.inl (hfits.inString heq hbefore hback hline ps)

/-! ## The tiling -/

/-- **Tokens tile the text.**  Every text is cut into pieces in the one way in which pieces fit.  Its tokens are, in
order, the leading blanks of the lines that start outside strings and the numbers, strings, words and signs, each
with its own characters and on the line of the first of them; the text ends on the line behind all its line feeds.
There is a report about every character that fits nothing, the null character apart, on its line, and a last one, on
the last line, if a string is still open at the end; that string takes the rest of the text. -/
theorem scan_tells (source : String) : ∃ pieces, (scan source).Tells source.toList pieces := by
  obtain ⟨hfit, htext⟩ := (Piece.tiles_iff source.toList (Piece.split source.toList)).2 rfl
  have hreports := problems_placed hfit
  rw [List.nil_append, htext] at hreports
  exact ⟨Piece.split source.toList, {
    fit := hfit
    text := htext
    only := fun others hothers hcs => (Piece.tiles_iff source.toList others).1 ⟨hothers, hcs⟩
    margin := fun before after heq hline => margin hfit (htext.trans heq) hline
    tokens := shows_placed hfit
    endLine := rfl
    reports := hreports }⟩

end Offside.Token
