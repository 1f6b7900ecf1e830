import Offside.Proofs.Reader.Breaks
import Offside.Proofs.Token.Moving

/-!
# Writing tokens

The tokens of a text can be written down again: each on its line, with one space between two of them on the same
line.  Comments, misfits and wide gaps are gone from what is written, and yet it has the same tokens: a space or a
line feed ends every number, word and sign, and blanks are leading blanks again at the start of their line only.

* `Stream.rendering` — the text of tokens;
* `Reads` — the tokens of a part of a text;
* `scan_rendering` — the text of the tokens of a text has the same tokens, and nothing is wrong with it.
-/

set_option autoImplicit false

namespace Offside.Token

open Piece (Tiles Fits AtLineStart Stops)

/-! ## The text of tokens -/

/-- What is written behind a token that ends on `line`: line feeds up to the line of the next token, or a space
unless that token or the text in front of it is the start of a line; line feeds at the end. -/
def renderFrom (endLine line : Int) (glued : Bool) : List Token → List Char
  | [] => List.replicate (endLine - line).toNat '\n'
  | t :: ts =>
    (if line < t.line then List.replicate (t.line - line).toNat '\n' else if glued then [] else [' ']) ++
      (t.lexeme.toList ++ renderFrom endLine t.endLine t.isIndentation ts)

/-- The text of tokens: each on its own line, behind a space if it stands behind another token than a leading
blank. -/
def Stream.rendering (s : Stream) : String :=
  String.ofList (renderFrom s.endLine 1 true s.tokens)

/-! ## Pieces that are tokens -/

/-- A text that goes on with a space or a line feed, if at all. -/
def Closed (after : List Char) : Prop :=
  ∀ c ∈ after.head?, c = ' ' ∨ c = '\n'

theorem Closed.stops {after : List Char} (h : Closed after) {p : Char → Bool} (hspace : p ' ' = false)
    (hfeed : p '\n' = false) : Stops p after := by
  intro c hc
  rcases h c hc with rfl | rfl
  · exact hspace
  · exact hfeed

theorem pairSign?_space (c : Char) : Piece.pairSign? c ' ' = none := by
  unfold Piece.pairSign?
  split <;> first | rfl | contradiction

theorem Closed.unpaired {after : List Char} (h : Closed after) (c : Char) : Piece.Unpaired c after := by
  intro d hd
  rcases h d hd with rfl | rfl
  · exact pairSign?_space c
  · exact Piece.pairSign?_lineFeed c

/-- A piece that is a token fits wherever a space, a line feed or nothing is behind it. -/
theorem Piece.Fits.of_closed {p : Piece} {before after : List Char} (h : Fits before p after)
    (hkind : p.kind?.isSome = true) (before' : List Char) {after' : List Char} (hclosed : Closed after') :
    Fits before' p after' := by
  cases h with
  | lineBreak | indentation | gap | comment | openString | stray => cases hkind
  | whole hrun _ _ =>
    apply Fits.whole hrun (hclosed.stops (by decide) (by decide))
    rintro rest rfl
    rcases hclosed '.' rfl with h | h <;> cases h
  | fraction hwhole hrun _ => exact .fraction hwhole hrun (hclosed.stops (by decide) (by decide))
  | string hsealed hlast => exact .string hsealed hlast
  | word hfirst hrun _ => exact .word hfirst hrun (hclosed.stops (by decide) (by decide))
  | pair hsign => exact .pair hsign
  | single hsign _ _ =>
    apply Fits.single hsign (hclosed.unpaired _)
    rintro - hslash
    rcases hclosed '/' hslash with h | h <;> cases h

/-- Behind a piece that is a token no line starts. -/
theorem Piece.Fits.not_atLineStart {p : Piece} {before after : List Char} (h : Fits before p after)
    (hkind : p.kind?.isSome = true) (before' : List Char) : ¬AtLineStart (before' ++ p.text) := by
  have hclosed : Closed [' '] := by
    rintro c ⟨⟩
    exact Or.inl rfl
  intro hline
  have hform := ((h.of_closed hkind before' hclosed).atLineStart_iff nofun).2 hline
  rw [Piece.kind?, eq_of_beq hform] at hkind
  cases hkind

/-- A class of characters that has no blank in it. -/
theorem isGap_of_class {q : Char → Bool} (hspace : q ' ' = false) (htab : q '\t' = false)
    (hreturn : q '\r' = false) {c : Char} (hc : q c = true) : Piece.isGap c = false := by
  rw [Bool.eq_false_iff]
  intro hgap
  simp only [Piece.isGap, Bool.or_eq_true, beq_iff_eq] at hgap
  rcases hgap with (rfl | rfl) | rfl
  · cases hspace.symm.trans hc
  · cases htab.symm.trans hc
  · cases hreturn.symm.trans hc

/-- A piece that is a token does not start with a blank. -/
theorem Piece.Fits.stops_isGap {p : Piece} {before after : List Char} (h : Fits before p after)
    (hkind : p.kind?.isSome = true) (rest : List Char) : Stops isGap (p.text ++ rest) := by
  intro c hc
  cases h with
  | lineBreak | indentation | gap | comment | openString | stray => cases hkind
  | whole hrun _ _ | fraction hrun _ _ =>
    cases hc
    exact isGap_of_class (by decide) (by decide) (by decide) (hrun _ List.mem_cons_self)
  | string _ _ =>
    cases hc
    rfl
  | word hfirst _ _ =>
    cases hc
    exact isGap_of_class (by decide) (by decide) (by decide) hfirst
  | pair hsign =>
    cases hc
    exact (plain_of_pairSign? hsign).1.gap
  | single hsign _ _ =>
    cases hc
    exact (plain_of_singleSign? hsign).gap

/-! ## Tokens of a part of a text -/

/-- Behind `before`, with its first character on `line`, the text has the tokens `ts` and nothing is wrong. -/
def Reads (before : List Char) (line : Int) (cs : List Char) (ts : List Token) : Prop :=
  ∃ ps, Tiles before ps ∧ ps.flatMap Piece.text = cs ∧ ((placed line ps).flatMap fun q => ofPiece q.1 q.2) = ts ∧
    ((placed line ps).flatMap fun q => problemsOf q.1 q.2) = []

namespace Reads

variable {before cs : List Char} {line : Int} {ts : List Token}

theorem nil (before : List Char) (line : Int) : Reads before line [] [] :=
  ReadsAs.nil before line

theorem piece {p : Piece} (hfits : Fits before p cs) (hproblems : problemsOf line p = [])
    (h : Reads (before ++ p.text) (line + Int.ofNat p.breaks) cs ts) :
    Reads before line (p.text ++ cs) (ofPiece line p ++ ts) := by
  have hpiece := ReadsAs.piece hfits h
  rw [hproblems] at hpiece
  exact hpiece

theorem lineFeeds (k : Nat) (h : Reads (before ++ List.replicate k '\n') (line + k) cs ts) :
    Reads before line (List.replicate k '\n' ++ cs) ts := by
  induction k generalizing before line with
  | zero => simpa using h
  | succ k ih =>
    have hfits : Fits before ⟨.lineBreak, ['\n']⟩ (List.replicate k '\n' ++ cs) := .lineBreak
    refine piece hfits rfl (ih ?_)
    rw [List.append_assoc]
    have hline : line + Int.ofNat (Piece.breaks ⟨.lineBreak, ['\n']⟩) + k = line + (k + 1 : Nat) := by
      have hone : Piece.breaks ⟨.lineBreak, ['\n']⟩ = 1 := rfl
      rw [hone, Int.ofNat_eq_natCast]
      omega
    rw [hline]
    exact h

theorem space (hline : ¬AtLineStart before) (hstops : Stops Piece.isGap cs)
    (h : Reads (before ++ [' ']) line cs ts) : Reads before line (' ' :: cs) ts := by
  have hfits : Fits before ⟨.gap, [' ']⟩ cs := by
    apply Fits.gap _ _ hstops
    · intro hstart
      exact absurd hstart hline
    · intro c hc
      rw [List.mem_singleton.1 hc]
      rfl
  refine piece hfits rfl ?_
  rw [hfits.line_of_blank (Or.inl rfl)]
  exact h

theorem blanks {bs : List Char} (hline : AtLineStart before) (hbs : ∀ c ∈ bs, Piece.isIndent c = true)
    (hstops : Stops Piece.isIndent cs) (h : Reads (before ++ bs) line cs ts) :
    Reads before line (bs ++ cs) (bs.map (ofBlank line) ++ ts) := by
  cases bs with
  | nil => simpa using h
  | cons b bs =>
    have hfits : Fits before ⟨.indentation, b :: bs⟩ cs := .indentation hline hbs hstops
    refine piece hfits rfl ?_
    rw [hfits.line_of_blank (Or.inr (Or.inl rfl))]
    exact h

/-- A text has the tokens that it reads as. -/
theorem scan_eq (h : Reads [] 1 cs ts) :
    scan (String.ofList cs) = ⟨⟨ts, lineBehind cs⟩, []⟩ :=
  ReadsAs.scan_eq h

end Reads

/-! ## Tokens of a text -/

theorem isIndentation_ofBlank (line : Int) (c : Char) : (ofBlank line c).isIndentation = true := by
  show (if c = ' ' then Kind.space else Kind.tab).isIndentation = true
  split <;> rfl

theorem endLine_ofBlank (line : Int) {c : Char} (hc : Piece.isIndent c = true) :
    (ofBlank line c).endLine = line := by
  have hcount : [c].count '\n' = 0 := by
    apply List.count_eq_zero.2
    intro hmem
    rw [← List.mem_singleton.1 hmem] at hc
    cases hc
  simp only [Token.endLine, ofBlank, String.toList_singleton, hcount]
  exact Int.add_zero line

/-- A token that is a whole piece has its characters and is no leading blank. -/
theorem Piece.Fits.token {p : Piece} {before after : List Char} (h : Fits before p after)
    (hkind : p.kind?.isSome = true) {line : Int} {t : Token} (ht : ofPiece line p = [t]) :
    t.lexeme.toList = p.text ∧ t.isIndentation = false := by
  cases h with
  | lineBreak | indentation | gap | comment | openString | stray => cases hkind
  | whole | fraction | string =>
    obtain ⟨rfl, -⟩ := List.cons.inj ht
    exact ⟨String.toList_ofList, rfl⟩
  | word =>
    obtain ⟨rfl, -⟩ := List.cons.inj ht
    exact ⟨String.toList_ofList, isIndentation_ofWord _⟩
  | pair hsign =>
    obtain ⟨rfl, -⟩ := List.cons.inj ht
    exact ⟨String.toList_ofList, isIndentation_of_pairSign? hsign⟩
  | single hsign _ _ =>
    obtain ⟨rfl, -⟩ := List.cons.inj ht
    exact ⟨String.toList_ofList, isIndentation_of_singleSign? hsign⟩

theorem problemsOf_of_kind? (line : Int) {p : Piece} (h : p.kind?.isSome = true) : problemsOf line p = [] := by
  obtain ⟨form, text⟩ := p
  cases form with
  | stray | openString => cases h
  | _ => rfl

/-- Where a token comes from: it is a leading blank, or all of a piece that fits somewhere. -/
inductive Stands (t : Token) : Prop where
  | blank {c : Char} (hc : Piece.isIndent c = true) (ht : t = ofBlank t.line c)
  | piece {p : Piece} {before after : List Char} (hfits : Fits before p after) (hkind : p.kind?.isSome = true)
      (ht : ofPiece t.line p = [t])

theorem ofPiece_eq_singleton {line : Int} {p : Piece} {t : Token} (ht : t ∈ ofPiece line p)
    (hform : p.form ≠ .indentation) : p.kind?.isSome = true ∧ ofPiece line p = [t] := by
  obtain ⟨form, text⟩ := p
  cases form with
  | indentation => exact absurd rfl hform
  | lineBreak | gap | comment | openString | stray => cases ht
  | number | string | word | sign =>
    rw [List.mem_singleton.1 ht]
    exact ⟨rfl, rfl⟩

theorem stands_of_ofPiece {before after : List Char} {line : Int} {p : Piece} {t : Token}
    (hfits : Fits before p after) (ht : t ∈ ofPiece line p) : Stands t := by
  have hline := (lines_ofPiece ht).1
  subst hline
  by_cases hform : p.form = .indentation
  · cases hfits with
    | indentation _ hrun _ =>
      obtain ⟨c, hc, heq⟩ := List.mem_map.1 ht
      exact .blank (hrun c hc) heq.symm
    | _ => cases hform
  · obtain ⟨hkind, hpiece⟩ := ofPiece_eq_singleton ht hform
    exact .piece hfits hkind hpiece

theorem stands_of_mem_placed {before : List Char} {line : Int} {ps : List Piece} (h : Tiles before ps) {t : Token}
    (ht : t ∈ (placed line ps).flatMap fun q => ofPiece q.1 q.2) : Stands t := by
  induction ps generalizing before line with
  | nil => cases ht
  | cons p ps ih =>
    rw [placed, List.flatMap_cons] at ht
    rcases List.mem_append.1 ht with ht | ht
    · exact stands_of_ofPiece h.1 ht
    · exact ih h.2 ht

/-- The tokens of pieces end on the line on which the pieces end, or earlier. -/
theorem endLine_le_of_mem_placed {line : Int} {ps : List Piece} {t : Token}
    (ht : t ∈ (placed line ps).flatMap fun q => ofPiece q.1 q.2) :
    t.endLine ≤ line + Int.ofNat ((ps.flatMap Piece.text).count '\n') := by
  induction ps generalizing line with
  | nil => cases ht
  | cons p ps ih =>
    rw [placed, List.flatMap_cons] at ht
    rw [List.flatMap_cons, List.count_append, Int.ofNat_eq_natCast]
    rcases List.mem_append.1 ht with ht | ht
    · have hle := (lines_ofPiece ht).2
      simp only [Piece.breaks] at hle
      omega
    · have hle := ih ht
      simp only [Piece.breaks, Int.ofNat_eq_natCast] at hle
      omega

/-- Tokens that can be written down: they stand for themselves, one before the other, between two lines. -/
structure Writable (endLine line : Int) (ts : List Token) : Prop where
  stands : ∀ t ∈ ts, Stands t
  before : ts.Pairwise Before
  line_le : ∀ t ∈ ts, line ≤ t.line
  endLine_le : ∀ t ∈ ts, t.endLine ≤ endLine
  le : line ≤ endLine

theorem Writable.of_cons {endLine line : Int} {t : Token} {ts : List Token} (h : Writable endLine line (t :: ts)) :
    Writable endLine t.endLine ts where
  stands := fun u hu => h.stands u (List.mem_cons_of_mem t hu)
  before := (List.pairwise_cons.1 h.before).2
  line_le := fun u hu => ((List.pairwise_cons.1 h.before).1 u hu).le
  endLine_le := fun u hu => h.endLine_le u (List.mem_cons_of_mem t hu)
  le := h.endLine_le t List.mem_cons_self

theorem writable_scan (source : String) :
    Writable (scan source).stream.endLine 1 (scan source).stream.tokens where
  stands := by
    intro t ht
    exact stands_of_mem_placed ((Piece.tiles_iff source.toList _).2 rfl).1 ht
  before := before_scan source
  line_le := by
    intro t ht
    exact ((before_splitFrom source.toList.length true source.toList 1).1 t ht).1
  endLine_le := by
    intro t ht
    have hle := endLine_le_of_mem_placed ht
    rwa [Piece.flatMap_text_split] at hle
  le := by
    show (1 : Int) ≤ 1 + Int.ofNat _
    rw [Int.ofNat_eq_natCast]
    omega

/-! ## Reading what is written -/

theorem closed_replicate (k : Nat) {cs : List Char} (h : Closed cs) : Closed (List.replicate k '\n' ++ cs) := by
  cases k with
  | zero => exact h
  | succ k =>
    rintro c ⟨⟩
    exact Or.inr rfl

theorem closed_nil : Closed [] := by
  nofun

theorem closed_renderFrom (endLine line : Int) (ts : List Token) : Closed (renderFrom endLine line false ts) := by
  cases ts with
  | nil =>
    rw [renderFrom, ← List.append_nil (List.replicate _ _)]
    exact closed_replicate _ closed_nil
  | cons t ts =>
    rw [renderFrom]
    split
    · next hlt =>
      obtain ⟨k, hk⟩ : ∃ k, (t.line - line).toNat = k + 1 := ⟨(t.line - line).toNat - 1, by omega⟩
      rw [hk]
      rintro c ⟨⟩
      exact Or.inr rfl
    · rintro c ⟨⟩
      exact Or.inl rfl

/-- Line feeds bring what is written to the line on which it ends. -/
theorem count_renderFrom {endLine line : Int} {ts : List Token} (h : Writable endLine line ts) (glued : Bool) :
    line + Int.ofNat ((renderFrom endLine line glued ts).count '\n') = endLine := by
  induction ts generalizing line glued with
  | nil =>
    have hle := h.le
    rw [renderFrom, List.count_replicate_self, Int.ofNat_eq_natCast]
    omega
  | cons t ts ih =>
    have hrest := ih h.of_cons t.isIndentation
    have hle := h.line_le t List.mem_cons_self
    rw [Token.endLine, Int.ofNat_eq_natCast] at hrest
    rw [renderFrom, List.count_append, List.count_append, Int.ofNat_eq_natCast, Token.endLine]
    split
    · rw [List.count_replicate_self]
      omega
    · have hnone : (if glued = true then [] else [' ']).count '\n' = 0 := by
        cases glued <;> rfl
      rw [hnone]
      omega

/-- What is written from a token on that is no leading blank; it does not start with a gap. -/
theorem reads_real {endLine : Int} {t : Token} {ts : List Token} (ht : Stands t) (hreal : t.isIndentation = false)
    (hinside : ∀ before, ¬AtLineStart before →
      Reads before t.endLine (renderFrom endLine t.endLine false ts) ts) (before : List Char) :
    let cs := t.lexeme.toList ++ renderFrom endLine t.endLine t.isIndentation ts
    Stops Piece.isGap cs ∧ Reads before t.line cs (t :: ts) := by
  cases ht with
  | @blank c _ ht =>
    rw [ht, isIndentation_ofBlank] at hreal
    cases hreal
  | @piece p front back hfits hkind ht =>
    have hlexeme := (hfits.token hkind ht).1
    have hend : t.endLine = t.line + Int.ofNat p.breaks := by
      rw [Token.endLine, hlexeme, Piece.breaks]
      rfl
    rw [hlexeme, hreal]
    refine ⟨hfits.stops_isGap hkind _, ?_⟩
    show Reads before t.line _ ([t] ++ ts)
    rw [← ht]
    have hclosed := closed_renderFrom endLine t.endLine ts
    refine Reads.piece (hfits.of_closed hkind before hclosed) (problemsOf_of_kind? t.line hkind) ?_
    rw [← hend]
    exact hinside _ (hfits.not_atLineStart hkind before)

/-- What is written from a token on, with leading blanks in front of it on its line. -/
theorem reads_token {endLine : Int} {t : Token} {ts : List Token} (ht : Stands t)
    (hmargin : ∀ before bs, AtLineStart before → (∀ c ∈ bs, Piece.isIndent c = true) →
      Reads before t.endLine (bs ++ renderFrom endLine t.endLine true ts) (bs.map (ofBlank t.endLine) ++ ts))
    (hinside : t.isIndentation = false → ∀ before, ¬AtLineStart before →
      Reads before t.endLine (renderFrom endLine t.endLine false ts) ts)
    {before bs : List Char} (hline : AtLineStart before) (hbs : ∀ c ∈ bs, Piece.isIndent c = true) :
    Reads before t.line (bs ++ (t.lexeme.toList ++ renderFrom endLine t.endLine t.isIndentation ts))
      (bs.map (ofBlank t.line) ++ t :: ts) := by
  cases hreal : t.isIndentation with
  | false =>
    obtain ⟨hstops, hreads⟩ := reads_real ht hreal (hinside hreal) (before ++ bs)
    rw [hreal] at hstops hreads
    exact Reads.blanks hline hbs (fun c hc => Piece.isIndent_of_isGap (hstops c hc)) hreads
  | true =>
    cases ht with
    | @blank c hc ht =>
      -- one more blank in front of what follows
      have hend : t.endLine = t.line := by
        rw [ht]
        exact endLine_ofBlank _ hc
      have hlexeme : t.lexeme.toList = [c] := by
        rw [ht]
        exact String.toList_singleton c
      have hbs' : ∀ d ∈ bs ++ [c], Piece.isIndent d = true := by
        intro d hd
        rcases List.mem_append.1 hd with hd | hd
        · exact hbs d hd
        · rw [List.mem_singleton.1 hd]
          exact hc
      have hreads := hmargin before (bs ++ [c]) hline hbs'
      rw [hend, List.map_append, List.append_assoc, List.append_assoc, List.map_singleton, ← ht] at hreads
      rw [hlexeme, hend]
      exact hreads
    | @piece p front back hfits hkind ht =>
      rw [(hfits.token hkind ht).2] at hreal
      cases hreal

theorem stops_replicate {k : Nat} {cs : List Char} (h : k = 0 → Stops Piece.isIndent cs) :
    Stops Piece.isIndent (List.replicate k '\n' ++ cs) := by
  cases k with
  | zero => exact h rfl
  | succ k =>
    rintro c ⟨⟩
    rfl

/-- Behind line feeds a line starts. -/
theorem reads_lineFeeds {line next : Int} (hlt : line < next) {before cs : List Char} {ts : List Token}
    (h : ∀ before, AtLineStart before → Reads before next cs ts) :
    Reads before line (List.replicate (next - line).toNat '\n' ++ cs) ts := by
  obtain ⟨k, hk⟩ : ∃ k, (next - line).toNat = k + 1 := ⟨(next - line).toNat - 1, by omega⟩
  have hnext : line + (k + 1 : Nat) = next := by omega
  rw [hk]
  apply Reads.lineFeeds
  rw [hnext]
  apply h
  rw [List.replicate_succ', ← List.append_assoc]
  exact Or.inr List.getLast?_concat

/-- At the end there are only line feeds. -/
theorem reads_end (before : List Char) (line : Int) (k : Nat) : Reads before line (List.replicate k '\n') [] := by
  have h := Reads.lineFeeds k (Reads.nil (before ++ List.replicate k '\n') (line + k))
  rwa [List.append_nil] at h

/-- What is written reads as the tokens that were written, at the start of a line with leading blanks in front of
them and inside a line. -/
theorem reads_renderFrom {endLine line : Int} {ts : List Token} (h : Writable endLine line ts) :
    (∀ before bs, AtLineStart before → (∀ c ∈ bs, Piece.isIndent c = true) →
      Reads before line (bs ++ renderFrom endLine line true ts) (bs.map (ofBlank line) ++ ts)) ∧
    ((∀ t ∈ ts, t.isIndentation = true → line < t.line) → ∀ before, ¬AtLineStart before →
      Reads before line (renderFrom endLine line false ts) ts) := by
  induction ts generalizing line with
  | nil =>
    constructor
    · intro before bs hline hbs
      have hstops : Stops Piece.isIndent (renderFrom endLine line true []) := by
        rw [renderFrom, ← List.append_nil (List.replicate _ _)]
        exact stops_replicate fun _ => nofun
      exact Reads.blanks hline hbs hstops (reads_end _ line _)
    · intro _ before _
      exact reads_end before line _
  | cons t ts ih =>
    obtain ⟨hmargin, hinside⟩ := ih h.of_cons
    have hafter := (List.pairwise_cons.1 h.before).1
    have hreal : t.isIndentation = false → ∀ before, ¬AtLineStart before →
        Reads before t.endLine (renderFrom endLine t.endLine false ts) ts := by
      intro ht
      apply hinside
      intro u hu hindent
      rcases (hafter u hu).indentation hindent with ht' | hlt
      · rw [ht] at ht'
        cases ht'
      · exact hlt
    have hstands := h.stands t List.mem_cons_self
    have hle := h.line_le t List.mem_cons_self
    -- the token behind line feeds, in both states
    have hnext : ∀ before, AtLineStart before →
        Reads before t.line (t.lexeme.toList ++ renderFrom endLine t.endLine t.isIndentation ts) (t :: ts) := by
      intro before hline
      have hnone : ∀ c ∈ ([] : List Char), Piece.isIndent c = true := nofun
      exact reads_token hstands hmargin hreal hline hnone
    constructor
    · intro before bs hline hbs
      rw [renderFrom]
      split
      · next hlt =>
        refine Reads.blanks hline hbs (stops_replicate fun hk => ?_) (reads_lineFeeds hlt hnext)
        omega
      · next hge =>
        obtain rfl : line = t.line := by omega
        exact reads_token hstands hmargin hreal hline hbs
    · intro hdeeper before hline
      rw [renderFrom]
      split
      · next hlt => exact reads_lineFeeds hlt hnext
      · next hge =>
        obtain rfl : line = t.line := by omega
        have ht : t.isIndentation = false := by
          rw [Bool.eq_false_iff]
          intro hindent
          exact Int.lt_irrefl _ (hdeeper t List.mem_cons_self hindent)
        obtain ⟨hstops, hreads⟩ := reads_real hstands ht (hreal ht) (before ++ [' '])
        exact Reads.space hline hstops hreads

/-- **Tokens written down.**  Write the tokens of a text one after the other, each on its line, and a space between
two of them on the same line unless the first one is a leading blank.  The result has the same tokens, of the same
kinds, values and lines, and ends on the same line; whatever was wrong with the text, nothing is wrong with it. -/
theorem scan_rendering (source : String) :
    scan (scan source).stream.rendering = ⟨(scan source).stream, []⟩ := by
  have hwritable := writable_scan source
  have hreads := (reads_renderFrom hwritable).1 [] [] (Or.inl rfl) nofun
  have hlines := count_renderFrom hwritable true
  rw [List.nil_append] at hreads
  rw [Stream.rendering, hreads.scan_eq, lineBehind, hlines]
  rfl

example : (scan "print  1.5+x // sum\n  # y\n").stream.rendering = "print 1.5 + x\n  y\n" := by
  decide +kernel

end Offside.Token
