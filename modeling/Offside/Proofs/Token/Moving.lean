import Offside.Proofs.Token.Tiling

/-!
# Pieces in other places

What a part of a text is read as does not depend on all that stands in front of it, only on whether a line starts
there; and what a piece is does not depend on all that stands behind it.  So parts of a text may be moved to other
texts and keep their pieces.

* `Piece.Tiles.rebase` — the same pieces behind another text;
* `ReadsAs` — the tokens and the reports of a part of a text, put together piece by piece;
* `ReadsAs.scan_eq` — a whole text.
-/

set_option autoImplicit false

namespace Offside.Token

open Piece (Tiles Fits AtLineStart)

/-! ## Behind another text -/

namespace Piece

/-- Whether a line starts behind a text is decided by its last part. -/
theorem atLineStart_append {before cs : List Char} (h : cs ≠ []) :
    AtLineStart (before ++ cs) ↔ cs.getLast? = some '\n' := by
  cases hlast : cs.getLast? with
  | none => exact absurd (List.getLast?_eq_none_iff.1 hlast) h
  | some c => simp [AtLineStart, List.getLast?_append, hlast, h]

/-- No line starts behind a text without line feeds. -/
theorem not_atLineStart_append {before cs : List Char} (h : cs ≠ []) (hmem : '\n' ∉ cs) :
    ¬AtLineStart (before ++ cs) := by
  rw [atLineStart_append h]
  exact fun hlast => hmem (List.mem_of_getLast? hlast)

theorem Fits.eq_lineBreak {before after : List Char} {p : Piece} (h : Fits before p after)
    (hform : p.form = .lineBreak) : p = ⟨.lineBreak, ['\n']⟩ := by
  cases h with
  | lineBreak => rfl
  | _ => cases hform

/-- Pieces other than line breaks and strings stay on their line. -/
theorem Fits.lineFeed_not_mem {before after : List Char} {p : Piece} (h : Fits before p after)
    (hbreak : p.form ≠ .lineBreak) (hstring : p.form ≠ .string) (hopen : p.form ≠ .openString) :
    '\n' ∉ p.text := by
  intro hmem
  rcases h.lineFeed_mem hmem with hform | hform | hform
  · exact hbreak hform
  · exact hstring hform
  · exact hopen hform

/-- Blanks and comments stay on their line. -/
theorem Fits.lineFeed_not_mem_of_blank {before after : List Char} {p : Piece} (h : Fits before p after)
    (hform : p.form = .gap ∨ p.form = .indentation ∨ p.form = .comment) : '\n' ∉ p.text := by
  apply h.lineFeed_not_mem <;> (rcases hform with hform | hform | hform <;> rw [hform] <;> nofun)

theorem Fits.line_of_blank {before after : List Char} {p : Piece} (h : Fits before p after)
    (hform : p.form = .gap ∨ p.form = .indentation ∨ p.form = .comment) (line : Int) :
    line + Int.ofNat p.breaks = line := by
  have hbreaks : p.breaks = 0 := List.count_eq_zero.2 (h.lineFeed_not_mem_of_blank hform)
  rw [hbreaks]
  exact Int.add_zero line

/-- Only blanks depend on what is in front of them. -/
theorem Fits.anywhere {before after : List Char} {p : Piece} (h : Fits before p after) (hgap : p.form ≠ .gap)
    (hindentation : p.form ≠ .indentation) (before' : List Char) : Fits before' p after := by
  cases h with
  | indentation => exact absurd rfl hindentation
  | gap => exact absurd rfl hgap
  | lineBreak => exact .lineBreak
  | comment hrun hstops => exact .comment hrun hstops
  | whole hrun hstops hpoint => exact .whole hrun hstops hpoint
  | fraction hwhole hrun hstops => exact .fraction hwhole hrun hstops
  | string hsealed hcloses => exact .string hsealed hcloses
  | openString hsealed => exact .openString hsealed
  | word hfirst hrun hstops => exact .word hfirst hrun hstops
  | pair hsign => exact .pair hsign
  | single hsign hpair hcomment => exact .single hsign hpair hcomment
  | stray hodd hpair => exact .stray hodd hpair

theorem Fits.rebase {before before' : List Char} {p : Piece} {after : List Char} (h : Fits before p after)
    (hline : AtLineStart before ↔ AtLineStart before') : Fits before' p after := by
  by_cases hblank : p.form = .gap ∨ p.form = .indentation
  · cases h with
    | indentation hstart hrun hstops => exact .indentation (hline.1 hstart) hrun hstops
    | gap hstart hrun hstops => exact .gap (fun h => hstart (hline.2 h)) hrun hstops
    | _ => rcases hblank with hblank | hblank <;> cases hblank
  · exact h.anywhere (fun hform => hblank (Or.inl hform)) (fun hform => hblank (Or.inr hform)) before'

theorem Tiles.rebase {before before' : List Char} {ps : List Piece} (h : Tiles before ps)
    (hline : AtLineStart before ↔ AtLineStart before') : Tiles before' ps := by
  cases ps with
  | nil => exact True.intro
  | cons p ps =>
    have hne := h.1.text_ne_nil
    refine ⟨h.1.rebase hline, ?_⟩
    exact Tiles.rebase h.2 ((atLineStart_append hne).trans (atLineStart_append hne).symm)

end Piece

/-! ## Parts of a text -/

/-- The tokens of pieces, the first of which starts on `line`. -/
def tokensFrom (line : Int) (ps : List Piece) : List Token :=
  (placed line ps).flatMap fun q => ofPiece q.1 q.2

/-- The problems of pieces, the first of which starts on `line`. -/
def problemsFrom (line : Int) (ps : List Piece) : List Report :=
  (placed line ps).flatMap fun q => problemsOf q.1 q.2

/-- Gaps and comments show nothing. -/
theorem from_cons_of_silent {before after : List Char} {p : Piece} (h : Fits before p after)
    (hform : p.form = .gap ∨ p.form = .comment) (line : Int) (ps : List Piece) :
    tokensFrom line (p :: ps) = tokensFrom line ps ∧ problemsFrom line (p :: ps) = problemsFrom line ps := by
  simp only [tokensFrom, problemsFrom, placed, List.flatMap_cons, h.line_of_blank (hform.imp_right Or.inr)]
  rcases hform with hform | hform <;> simp [ofPiece, problemsOf, hform]

/-- Behind `before`, with its first character on `line`, the text has the tokens `ts` and the reports `rs`. -/
def ReadsAs (before : List Char) (line : Int) (cs : List Char) (ts : List Token) (rs : List Report) : Prop :=
  ∃ ps, Tiles before ps ∧ ps.flatMap Piece.text = cs ∧ tokensFrom line ps = ts ∧ problemsFrom line ps = rs

namespace ReadsAs

variable {before cs : List Char} {line : Int} {ts : List Token} {rs : List Report}

theorem nil (before : List Char) (line : Int) : ReadsAs before line [] [] [] :=
  ⟨[], True.intro, rfl, rfl, rfl⟩

theorem piece {p : Piece} (hfits : Fits before p cs)
    (h : ReadsAs (before ++ p.text) (line + Int.ofNat p.breaks) cs ts rs) :
    ReadsAs before line (p.text ++ cs) (ofPiece line p ++ ts) (problemsOf line p ++ rs) := by
  obtain ⟨ps, htiles, rfl, rfl, rfl⟩ := h
  exact ⟨p :: ps, ⟨hfits, htiles⟩, rfl, rfl, rfl⟩

/-- A piece that shows nothing. -/
theorem silent {form : Piece.Form} {text : List Char} (hfits : Fits before ⟨form, text⟩ cs)
    (hform : form = .gap ∨ form = .comment) (h : ReadsAs (before ++ text) line cs ts rs) :
    ReadsAs before line (text ++ cs) ts rs := by
  obtain ⟨ps, htiles, rfl, rfl, rfl⟩ := h
  obtain ⟨htokens, hproblems⟩ := from_cons_of_silent hfits hform line ps
  exact ⟨⟨form, text⟩ :: ps, ⟨hfits, htiles⟩, rfl, htokens, hproblems⟩

theorem rebase (h : ReadsAs before line cs ts rs) {before' : List Char}
    (hline : AtLineStart before ↔ AtLineStart before') : ReadsAs before' line cs ts rs := by
  obtain ⟨ps, htiles, hps⟩ := h
  exact ⟨ps, htiles.rebase hline, hps⟩

/-- Behind a line feed it does not matter what the text in front of it is. -/
theorem lineFeed (hline : AtLineStart before) (h : ReadsAs before (line + 1) cs ts rs) (front : List Char) :
    ReadsAs front line ('\n' :: cs) ts rs := by
  have hfeed : AtLineStart (front ++ ['\n']) := Or.inr List.getLast?_concat
  exact piece (p := ⟨.lineBreak, ['\n']⟩) .lineBreak (h.rebase (iff_of_true hline hfeed))

/-- A text has the tokens and the reports that it reads as. -/
theorem scan_eq (h : ReadsAs [] 1 cs ts rs) : scan (String.ofList cs) = ⟨⟨ts, lineBehind cs⟩, rs⟩ := by
  obtain ⟨ps, htiles, htext, rfl, rfl⟩ := h
  have hsplit := (Piece.tiles_iff cs ps).1 ⟨htiles, htext⟩
  subst hsplit
  simp only [scan, String.toList_ofList, lineBehind, tokensFrom, problemsFrom]

end ReadsAs

end Offside.Token
