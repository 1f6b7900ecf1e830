import Offside.Proofs.Token.Moving
import Offside.Proofs.Token.Rendering

/-!
# Line breaks put into a text

A line break with blanks behind it may be put between two pieces of a text, or into blanks.  The pieces in front of
it stay as they are, and so do those behind it, one line further down.  Blanks behind it are leading blanks now, and
that is all that is new.

* `Boundary` — the places between pieces and inside blanks;
* `withBreak` — the text with a line break put in, and `lowered` — a token one line further down;
* `scan_inserted` — the tokens of a text with a line break put in.
-/

set_option autoImplicit false

namespace Offside.Token

open Piece (Tiles Fits AtLineStart Stops Unpaired)

/-- A place in a text that is inside no piece, or inside blanks. -/
def Boundary (before after : List Char) : Prop :=
  ∀ front p back x y, Piece.split (before ++ after) = front ++ p :: back → p.text = x ++ y → x ≠ [] → y ≠ [] →
    before = front.flatMap Piece.text ++ x → p.form = .gap ∨ p.form = .indentation

/-- Between two pieces is inside none. -/
theorem boundary_of_split (front back : List Piece) {after : List Char}
    (h : Piece.split (front.flatMap Piece.text ++ after) = front ++ back) :
    Boundary (front.flatMap Piece.text) after := by
  intro front' p back' x y hsplit hp hx hy hbefore
  rw [h] at hsplit
  exfalso
  rcases List.append_eq_append_iff.1 hsplit with ⟨deeper, rfl, -⟩ | ⟨deeper, rfl, hdeeper⟩
  · simp [hx] at hbefore
  · cases deeper with
    | nil => simp [hx] at hbefore
    | cons q deeper =>
      obtain ⟨rfl, -⟩ := List.cons.inj hdeeper
      simp [hp, hy] at hbefore

/-- The text with a line break and then `ws` put in at a place. -/
def withBreak (before ws after : List Char) : String :=
  String.ofList (before ++ '\n' :: (ws ++ after))

/-- The token one line further down. -/
def lowered (t : Token) : Token :=
  { t with line := t.line + 1 }

/-! ## Pieces in front of the place -/

namespace Piece

/-- Instead of `u`, the text may go on with `v`: with a line feed, or with a blank with which `u` starts. -/
def Interrupts (u v : List Char) : Prop :=
  ∀ c ∈ v.head?, c = '\n' ∨ isGap c = true ∧ c ∈ u.head?

theorem interrupts_nil (u : List Char) : Interrupts u [] := by
  nofun

theorem interrupts_lineFeed (u v : List Char) : Interrupts u ('\n' :: v) := by
  rintro c ⟨⟩
  exact Or.inl rfl

/-- Nothing but a line feed goes on where nothing went on before. -/
theorem Interrupts.of_nil {v : List Char} (h : Interrupts [] v) (u : List Char) : Interrupts u v := by
  intro c hc
  rcases h c hc with hfeed | ⟨-, hnil⟩
  · exact Or.inl hfeed
  · cases hnil

theorem Interrupts.stops {w u v : List Char} (hinter : Interrupts u v) {q : Char → Bool} (hfeed : q '\n' = false)
    (h : Stops q (w ++ u)) : Stops q (w ++ v) := by
  cases w with
  | cons c w => exact h
  | nil =>
    intro c hc
    rcases hinter c hc with rfl | ⟨-, hu⟩
    · exact hfeed
    · exact h c hu

theorem Interrupts.unpaired {w u v : List Char} (hinter : Interrupts u v) {c : Char} (h : Unpaired c (w ++ u)) :
    Unpaired c (w ++ v) := by
  cases w with
  | cons d w => exact h
  | nil =>
    intro d hd
    rcases hinter d hd with rfl | ⟨-, hu⟩
    · exact pairSign?_lineFeed c
    · exact h d hu

/-- A piece that may be followed by a line feed fits in front of it. -/
theorem Fits.interrupted {before w u v : List Char} {p : Piece} (h : Fits before p (w ++ u))
    (hform : p.form ≠ .openString) (hinter : Interrupts u v) : Fits before p (w ++ v) := by
  generalize hafter : w ++ u = after at h
  cases h with
  | lineBreak => exact .lineBreak
  | indentation hstart hrun hstops =>
    subst hafter
    exact .indentation hstart hrun (hinter.stops (by decide) hstops)
  | gap hstart hrun hstops =>
    subst hafter
    exact .gap hstart hrun (hinter.stops (by decide) hstops)
  | comment hrun hstops =>
    subst hafter
    exact .comment hrun (hinter.stops (by decide) hstops)
  | whole hrun hstops hpoint =>
    subst hafter
    refine .whole hrun (hinter.stops (by decide) hstops) ?_
    intro rest hrest
    cases w with
    | nil =>
      rcases hinter '.' (by rw [← List.nil_append v, hrest]; rfl) with hfeed | ⟨hgap, -⟩
      · cases hfeed
      · cases hgap
    | cons c w =>
      obtain ⟨rfl, rfl⟩ := List.cons.inj hrest
      exact hinter.stops (by decide) (hpoint (w ++ u) rfl)
  | fraction hwhole hrun hstops =>
    subst hafter
    exact .fraction hwhole hrun (hinter.stops (by decide) hstops)
  | string hsealed hlast => exact .string hsealed hlast
  | openString => exact absurd rfl hform
  | word hfirst hrun hstops =>
    subst hafter
    exact .word hfirst hrun (hinter.stops (by decide) hstops)
  | pair hsign => exact .pair hsign
  | single hsign hpair hslash =>
    subst hafter
    refine .single hsign (hinter.unpaired hpair) ?_
    intro hc hhead
    cases w with
    | cons d w => exact hslash hc hhead
    | nil =>
      rcases hinter '/' hhead with hfeed | ⟨hgap, -⟩
      · cases hfeed
      · cases hgap
  | stray hodd hpair =>
    subst hafter
    exact .stray hodd (hinter.unpaired hpair)

/-- Other pieces than blanks do not start with a blank. -/
theorem Fits.stops_isIndent {before after : List Char} {p : Piece} (h : Fits before p after)
    (hgap : p.form ≠ .gap) (hindentation : p.form ≠ .indentation) : Stops isIndent (p.text ++ after) := by
  intro c hc
  rw [Bool.eq_false_iff]
  intro hindent
  -- at the start of a text the blank would be its indentation
  cases htext : p.text ++ after with
  | nil =>
    rw [htext] at hc
    cases hc
  | cons d ds =>
    rw [htext] at hc
    cases hc
    have hstart : true = true ↔ AtLineStart [] := iff_of_true rfl (Or.inl rfl)
    have hcut := cut_of_fits hstart (h.anywhere hgap hindentation []) htext
    rw [cut_of_isIndent ds hindent] at hcut
    exact hindentation (congrArg form (Prod.mk.inj hcut).1).symm

theorem Fits.of_gap {before after text : List Char} (h : Fits before ⟨.gap, text⟩ after) :
    (∀ c ∈ text, isGap c = true) ∧ Stops isGap after := by
  cases h with
  | gap _ hrun hstops => exact ⟨hrun, hstops⟩

theorem Fits.of_indentation {before after text : List Char} (h : Fits before ⟨.indentation, text⟩ after) :
    (∀ c ∈ text, isIndent c = true) ∧ Stops isIndent after := by
  cases h with
  | indentation _ hrun hstops => exact ⟨hrun, hstops⟩

/-- The first characters of blanks are blanks. -/
theorem Fits.initial {before after : List Char} {form : Form} {x y : List Char}
    (h : Fits before ⟨form, x ++ y⟩ after) (hform : form = .gap ∨ form = .indentation) (hx : x ≠ [])
    {rest : List Char} (hrest : Interrupts [] rest) : Fits before ⟨form, x⟩ rest := by
  have hstops : ∀ q : Char → Bool, q '\n' = false → Stops q rest := by
    intro q hq c hc
    rcases hrest c hc with rfl | ⟨-, hnil⟩
    · exact hq
    · cases hnil
  obtain ⟨c, cs, rfl⟩ := List.exists_cons_of_ne_nil hx
  generalize htext : c :: cs ++ y = text at h
  cases h with
  | indentation hstart hrun _ =>
    obtain ⟨rfl, rfl⟩ := List.cons.inj htext
    exact .indentation hstart (fun d hd => hrun d (List.mem_append_left y hd)) (hstops _ (by decide))
  | gap hstart hrun _ =>
    obtain ⟨rfl, rfl⟩ := List.cons.inj htext
    exact .gap hstart (fun d hd => hrun d (List.mem_append_left y hd)) (hstops _ (by decide))
  | _ => rcases hform with hform | hform <;> cases hform

/-- Blanks may be cut short. -/
theorem Fits.interrupts {before after : List Char} {form : Form} {x y : List Char}
    (h : Fits before ⟨form, x ++ y⟩ after) (hform : form = .gap ∨ form = .indentation) (hx : x ≠ [])
    (u v : List Char) : Interrupts (x ++ y ++ u) (x ++ v) := by
  obtain ⟨c, cs, rfl⟩ := List.exists_cons_of_ne_nil hx
  rintro d ⟨⟩
  refine Or.inr ⟨?_, rfl⟩
  rcases hform with rfl | rfl
  · exact h.of_gap.1 c List.mem_cons_self
  · have hindent := h.of_indentation.1 c List.mem_cons_self
    by_contra hgap
    rw [isIndent_of_isGap (Bool.eq_false_iff.2 hgap)] at hindent
    cases hindent

end Piece

/-! ## Both sides of the place -/

theorem tokensFrom_cons (line : Int) (p : Piece) (ps : List Piece) :
    tokensFrom line (p :: ps) = ofPiece line p ++ tokensFrom (line + Int.ofNat p.breaks) ps := rfl

theorem problemsFrom_cons (line : Int) (p : Piece) (ps : List Piece) :
    problemsFrom line (p :: ps) = problemsOf line p ++ problemsFrom (line + Int.ofNat p.breaks) ps := rfl

theorem lowered_ofPiece (line : Int) (p : Piece) : (ofPiece line p).map lowered = ofPiece (line + 1) p := by
  obtain ⟨form, text⟩ := p
  cases form with
  | indentation =>
    simp only [ofPiece, List.map_map]
    rfl
  | _ => rfl

/-- Pieces that start one line further down. -/
theorem tokensFrom_succ (line : Int) (ps : List Piece) :
    tokensFrom (line + 1) ps = (tokensFrom line ps).map lowered := by
  induction ps generalizing line with
  | nil => rfl
  | cons p ps ih =>
    rw [tokensFrom_cons, tokensFrom_cons, List.map_append, lowered_ofPiece, ← ih]
    congr 2
    omega

theorem problemsFrom_succ {line : Int} {ps : List Piece} (h : problemsFrom line ps = []) :
    problemsFrom (line + 1) ps = [] := by
  induction ps generalizing line with
  | nil => rfl
  | cons p ps ih =>
    rw [problemsFrom_cons, List.append_eq_nil_iff] at h
    have hline : line + 1 + Int.ofNat p.breaks = line + Int.ofNat p.breaks + 1 := by omega
    rw [problemsFrom_cons, hline, ih h.2, List.append_nil]
    obtain ⟨form, text⟩ := p
    cases form with
    | openString => cases h.1
    | stray => simpa [problemsOf] using h.1
    | _ => rfl

theorem tokensFrom_append (start : List Char) (ps qs : List Piece) :
    tokensFrom (lineBehind start) (ps ++ qs) =
      tokensFrom (lineBehind start) ps ++ tokensFrom (lineBehind (start ++ ps.flatMap Piece.text)) qs := by
  induction ps generalizing start with
  | nil => simp [tokensFrom, placed]
  | cons p ps ih =>
    rw [List.cons_append, tokensFrom_cons, tokensFrom_cons, ← lineBehind_piece, ih, List.flatMap_cons,
      List.append_assoc, List.append_assoc]

theorem problemsFrom_append {start : List Char} {ps qs : List Piece}
    (h : problemsFrom (lineBehind start) (ps ++ qs) = []) :
    problemsFrom (lineBehind start) ps = [] ∧ problemsFrom (lineBehind (start ++ ps.flatMap Piece.text)) qs = [] := by
  induction ps generalizing start with
  | nil => exact ⟨rfl, by simpa using h⟩
  | cons p ps ih =>
    rw [List.cons_append, problemsFrom_cons, ← lineBehind_piece, List.append_eq_nil_iff] at h
    obtain ⟨hps, hqs⟩ := ih h.2
    rw [List.append_assoc, ← List.flatMap_cons] at hqs
    refine ⟨?_, hqs⟩
    rw [problemsFrom_cons, ← lineBehind_piece, h.1, hps]
    rfl

theorem Piece.Tiles.of_append {start : List Char} {ps qs : List Piece} (h : Tiles start (ps ++ qs)) :
    Tiles (start ++ ps.flatMap Piece.text) qs := by
  induction ps generalizing start with
  | nil => simpa using h
  | cons p ps ih => simpa using ih h.2

/-- Pieces that are no problem stay as they are in front of a line feed, or of a blank with which the text went on. -/
theorem Reads.front {start rest : List Char} {front back : List Piece} {ts : List Token}
    (h : Tiles start (front ++ back)) (hclean : problemsFrom (lineBehind start) front = [])
    (hinter : Piece.Interrupts (back.flatMap Piece.text) rest)
    (hreads : Reads (start ++ front.flatMap Piece.text) (lineBehind (start ++ front.flatMap Piece.text)) rest ts) :
    Reads start (lineBehind start) (front.flatMap Piece.text ++ rest)
      (tokensFrom (lineBehind start) front ++ ts) := by
  induction front generalizing start with
  | nil =>
    simp only [List.flatMap_nil, List.append_nil] at hreads
    exact hreads
  | cons p front ih =>
    obtain ⟨hfits, htiles⟩ := h
    rw [problemsFrom_cons, List.append_eq_nil_iff, ← lineBehind_piece] at hclean
    have hopen : p.form ≠ .openString := by
      intro hform
      rw [problemsOf, hform] at hclean
      cases hclean.1
    have hfits : Fits start p (front.flatMap Piece.text ++ back.flatMap Piece.text) := by
      rwa [← List.flatMap_append]
    rw [List.flatMap_cons, ← List.append_assoc] at hreads
    have hrest := ih htiles hclean.2 hreads
    rw [lineBehind_piece] at hrest
    have hpiece := Reads.piece (hfits.interrupted hopen hinter) hclean.1 hrest
    rw [← List.append_assoc, ← List.append_assoc] at hpiece
    exact hpiece

/-- Whole pieces that are no problem, with a line starting in front of them or not as before. -/
theorem Reads.of_tiles {before before' : List Char} {line : Int} {ps : List Piece} (h : Tiles before ps)
    (hline : AtLineStart before ↔ AtLineStart before') (hclean : problemsFrom line ps = []) :
    Reads before' line (ps.flatMap Piece.text) (tokensFrom line ps) :=
  ⟨ps, h.rebase hline, rfl, rfl, hclean⟩

theorem isIndentation_of_mem_blanks {ws : List Char} {line : Int} {t : Token} (ht : t ∈ ws.map (ofBlank line)) :
    t.isIndentation = true := by
  obtain ⟨c, -, rfl⟩ := List.mem_map.1 ht
  exact isIndentation_ofBlank line c

theorem lineFeed_not_mem_of_isIndent {cs : List Char} (h : ∀ c ∈ cs, Piece.isIndent c = true) : '\n' ∉ cs :=
  fun hmem => nomatch h '\n' hmem

/-- The rest of a gap at the start of a line, behind blanks: leading blanks, and a gap behind them from its first
carriage return on. -/
theorem reads_gap {b ws y cs : List Char} {line : Int} {ts : List Token} (hb : AtLineStart b)
    (hws : ∀ c ∈ ws, Piece.isIndent c = true) (hy : ∀ c ∈ y, Piece.isGap c = true) (hstops : Stops Piece.isGap cs)
    (h : Reads (b ++ (ws ++ y)) line cs ts) :
    ∃ blanks : List Token, (∀ t ∈ blanks, t.isIndentation = true) ∧ Reads b line (ws ++ (y ++ cs)) (blanks ++ ts) := by
  have hsplit : y.takeWhile Piece.isIndent ++ y.dropWhile Piece.isIndent = y := List.takeWhile_append_dropWhile
  have hrun : ∀ c ∈ ws ++ y.takeWhile Piece.isIndent, Piece.isIndent c = true := by
    intro c hc
    rcases List.mem_append.1 hc with hc | hc
    · exact hws c hc
    · exact List.mem_takeWhile_imp hc
  refine ⟨(ws ++ y.takeWhile Piece.isIndent).map (ofBlank line), fun t => isIndentation_of_mem_blanks, ?_⟩
  have htext : ws ++ (y ++ cs) = ws ++ y.takeWhile Piece.isIndent ++ (y.dropWhile Piece.isIndent ++ cs) := by
    rw [← List.append_assoc (ws ++ _), List.append_assoc ws, hsplit, List.append_assoc]
  rw [htext]
  have hdrop := Piece.stops_dropWhile Piece.isIndent y
  cases hrest : y.dropWhile Piece.isIndent with
  | nil =>
    rw [hrest, List.append_nil] at hsplit
    rw [hsplit] at hrun ⊢
    exact Reads.blanks hb hrun (fun c hc => Piece.isIndent_of_isGap (hstops c hc)) h
  | cons d ds =>
    rw [hrest] at hdrop hsplit
    have hd : Piece.isIndent d = false := hdrop d rfl
    have hfits : Fits (b ++ (ws ++ y.takeWhile Piece.isIndent)) ⟨.gap, d :: ds⟩ cs := by
      refine .gap (fun _ => hd) ?_ hstops
      intro c hc
      apply hy
      rw [← hsplit]
      exact List.mem_append_right _ hc
    have hbehind : Reads (b ++ (ws ++ y.takeWhile Piece.isIndent) ++ d :: ds) line cs ts := by
      rwa [List.append_assoc, List.append_assoc, hsplit]
    refine Reads.blanks hb hrun ?_ (ReadsAs.silent hfits (Or.inl rfl) hbehind)
    rintro c ⟨⟩
    exact hd

/-- The first characters of blanks in front of a line feed or at the end. -/
theorem reads_blank_front {start x y rest after : List Char} {form : Piece.Form} {ts : List Token}
    (h : Fits start ⟨form, x ++ y⟩ after) (hform : form = .gap ∨ form = .indentation) (hx : x ≠ [])
    (hrest : Piece.Interrupts [] rest) (hreads : Reads (start ++ x) (lineBehind (start ++ x)) rest ts) :
    Reads start (lineBehind start) (x ++ rest) (ofPiece (lineBehind start) ⟨form, x⟩ ++ ts) := by
  have hproblems : problemsOf (lineBehind start) ⟨form, x⟩ = [] := by
    rcases hform with rfl | rfl <;> rfl
  refine Reads.piece (h.initial hform hx hrest) hproblems ?_
  rwa [← lineBehind_piece]

/-- Blanks, or the rest of them, at the start of a line and behind other blanks. -/
theorem reads_blank_back {start b x y ws : List Char} {line : Int} {p : Piece} {back : List Piece}
    (h : Tiles start (p :: back)) (hform : p.form = .gap ∨ p.form = .indentation) (htext : p.text = x ++ y)
    (hy : y ≠ []) (hclean : problemsFrom line back = []) (hb : AtLineStart b)
    (hws : ∀ c ∈ ws, Piece.isIndent c = true) :
    ∃ blanks : List Token, (∀ t ∈ blanks, t.isIndentation = true) ∧
      Reads b line (ws ++ (y ++ back.flatMap Piece.text))
        (blanks ++ (ofPiece line ⟨p.form, y⟩ ++ tokensFrom line back)) := by
  obtain ⟨hfits, htiles⟩ := h
  have hmem := hfits.lineFeed_not_mem_of_blank (hform.imp_right Or.inl)
  have hmem' : '\n' ∉ ws ++ y := by
    intro hmem'
    rcases List.mem_append.1 hmem' with hmem' | hmem'
    · exact lineFeed_not_mem_of_isIndent hws hmem'
    · exact hmem (htext ▸ List.mem_append_right x hmem')
  have hline : AtLineStart (start ++ p.text) ↔ AtLineStart (b ++ (ws ++ y)) :=
    iff_of_false (Piece.not_atLineStart_append hfits.text_ne_nil hmem)
      (Piece.not_atLineStart_append (List.append_ne_nil_of_right_ne_nil ws hy) hmem')
  have hreads := Reads.of_tiles htiles hline hclean
  obtain ⟨form, text⟩ := p
  obtain rfl : text = x ++ y := htext
  rcases hform with rfl | rfl
  · obtain ⟨hrun, hstops⟩ := hfits.of_gap
    exact reads_gap hb hws (fun c hc => hrun c (List.mem_append_right x hc)) hstops hreads
  · obtain ⟨hrun, hstops⟩ := hfits.of_indentation
    refine ⟨ws.map (ofBlank line), fun t => isIndentation_of_mem_blanks, ?_⟩
    have hblank : ∀ c ∈ ws ++ y, Piece.isIndent c = true := by
      intro c hc
      rcases List.mem_append.1 hc with hc | hc
      · exact hws c hc
      · exact hrun c (List.mem_append_right x hc)
    have hall := Reads.blanks hb hblank hstops hreads
    rw [List.append_assoc, List.map_append, List.append_assoc] at hall
    exact hall

/-- Whole pieces at the start of a line, behind blanks. -/
theorem reads_back {start b ws : List Char} {line : Int} {back : List Piece} (h : Tiles start back)
    (hclean : problemsFrom line back = []) (hb : AtLineStart b) (hws : ∀ c ∈ ws, Piece.isIndent c = true) :
    ∃ blanks : List Token, (∀ t ∈ blanks, t.isIndentation = true) ∧
      Reads b line (ws ++ back.flatMap Piece.text) (blanks ++ tokensFrom line back) := by
  have hblanks : ∀ t ∈ ws.map (ofBlank line), t.isIndentation = true := fun t => isIndentation_of_mem_blanks
  cases back with
  | nil => exact ⟨_, hblanks, Reads.blanks hb hws nofun (Reads.nil _ line)⟩
  | cons p back =>
    rw [problemsFrom_cons, List.append_eq_nil_iff] at hclean
    by_cases hform : p.form = .gap ∨ p.form = .indentation
    · have hline := h.1.line_of_blank (hform.imp_right Or.inl) line
      rw [tokensFrom_cons, hline]
      rw [hline] at hclean
      exact reads_blank_back (x := []) h hform rfl h.1.text_ne_nil hclean.2 hb hws
    · have hgap : p.form ≠ .gap := fun hgap => hform (Or.inl hgap)
      have hindentation : p.form ≠ .indentation := fun hindentation => hform (Or.inr hindentation)
      refine ⟨_, hblanks, Reads.blanks hb hws (h.1.stops_isIndent hgap hindentation) ?_⟩
      have hne := h.1.text_ne_nil
      have hline : AtLineStart (start ++ p.text) ↔ AtLineStart (b ++ ws ++ p.text) :=
        (Piece.atLineStart_append hne).trans (Piece.atLineStart_append hne).symm
      exact Reads.piece (h.1.anywhere hgap hindentation _) hclean.1 (Reads.of_tiles h.2 hline hclean.2)

/-! ## The place -/

/-- A place in a text is between two pieces or inside one. -/
theorem pieces_at {ps : List Piece} {before after : List Char} (h : ps.flatMap Piece.text = before ++ after) :
    (∃ front back, ps = front ++ back ∧ front.flatMap Piece.text = before ∧ back.flatMap Piece.text = after) ∨
    ∃ front p back x y, ps = front ++ p :: back ∧ p.text = x ++ y ∧ x ≠ [] ∧ y ≠ [] ∧
      before = front.flatMap Piece.text ++ x ∧ after = y ++ back.flatMap Piece.text := by
  induction ps generalizing before with
  | nil =>
    obtain ⟨rfl, rfl⟩ := List.append_eq_nil_iff.1 h.symm
    exact Or.inl ⟨[], [], rfl, rfl, rfl⟩
  | cons p ps ih =>
    have hbehind : ∀ deeper, before = p.text ++ deeper → ps.flatMap Piece.text = deeper ++ after →
        (∃ front back, p :: ps = front ++ back ∧ front.flatMap Piece.text = before ∧
          back.flatMap Piece.text = after) ∨
        ∃ front q back x y, p :: ps = front ++ q :: back ∧ q.text = x ++ y ∧ x ≠ [] ∧ y ≠ [] ∧
          before = front.flatMap Piece.text ++ x ∧ after = y ++ back.flatMap Piece.text := by
      rintro deeper rfl hrest
      rcases ih hrest with ⟨front, back, rfl, rfl, hback⟩ | ⟨front, q, back, x, y, rfl, hq, hx, hy, rfl, hback⟩
      · exact Or.inl ⟨p :: front, back, rfl, rfl, hback⟩
      · exact Or.inr ⟨p :: front, q, back, x, y, rfl, hq, hx, hy, by simp, hback⟩
    rcases List.append_eq_append_iff.1 h with ⟨deeper, heq, hrest⟩ | ⟨y, heq, hrest⟩
    · exact hbehind deeper heq hrest
    · by_cases hy : y = []
      · subst hy
        exact hbehind [] (by simpa using heq.symm) hrest.symm
      · by_cases hx : before = []
        · subst hx
          exact Or.inl ⟨[], p :: ps, rfl, rfl, h⟩
        · exact Or.inr ⟨[], p, ps, before, y, rfl, heq, hx, hy, rfl, hrest⟩

/-- What a place in a text without problems does to the tokens of the text: those in front of it do not change if the
text ends there or goes on with a line feed; those behind it do not change, but for their lines, behind leading
blanks. -/
structure Parted (before after : List Char) (front back : List Token) : Prop where
  tokens : (scan (String.ofList (before ++ after))).stream.tokens = front ++ back
  front : ∀ rest ts, Piece.Interrupts [] rest → Reads before (lineBehind before) rest ts →
    Reads [] 1 (before ++ rest) (front ++ ts)
  back : ∀ b ws, AtLineStart b → (∀ c ∈ ws, Piece.isIndent c = true) →
    ∃ blanks : List Token, (∀ t ∈ blanks, t.isIndentation = true) ∧
      Reads b (lineBehind before + 1) (ws ++ after) (blanks ++ back.map lowered)

theorem lineBehind_append_of_not_mem (before : List Char) {cs : List Char} (h : '\n' ∉ cs) :
    lineBehind (before ++ cs) = lineBehind before := by
  rw [lineBehind_append, List.count_eq_zero.2 h]
  exact Int.add_zero _

theorem scan_ofList (cs : List Char) :
    (scan (String.ofList cs)).stream.tokens = tokensFrom (lineBehind []) (Piece.split cs) ∧
      (scan (String.ofList cs)).reports = problemsFrom (lineBehind []) (Piece.split cs) := by
  rw [scan, String.toList_ofList]
  exact ⟨rfl, rfl⟩

theorem parted_of_pieces {before after : List Char} {front back : List Piece}
    (hsplit : Piece.split (before ++ after) = front ++ back) (hbefore : front.flatMap Piece.text = before)
    (hafter : back.flatMap Piece.text = after) (hclean : (scan (String.ofList (before ++ after))).reports = []) :
    ∃ front back, Parted before after front back := by
  obtain ⟨htokens, hproblems⟩ := scan_ofList (before ++ after)
  have htiles := ((Piece.tiles_iff (before ++ after) _).2 rfl).1
  rw [hproblems, hsplit] at hclean
  rw [hsplit] at htokens htiles
  subst hbefore hafter
  obtain ⟨hfront, hback⟩ := problemsFrom_append hclean
  refine ⟨_, _, htokens.trans (tokensFrom_append [] front back), ?_, ?_⟩
  · intro rest ts hrest hreads
    exact Reads.front htiles hfront (hrest.of_nil _) hreads
  · intro b ws hb hws
    rw [← tokensFrom_succ]
    exact reads_back htiles.of_append (problemsFrom_succ hback) hb hws

theorem parted_of_blanks {before after x y : List Char} {front back : List Piece} {p : Piece}
    (hsplit : Piece.split (before ++ after) = front ++ p :: back) (hform : p.form = .gap ∨ p.form = .indentation)
    (hp : p.text = x ++ y) (hx : x ≠ []) (hy : y ≠ []) (hbefore : before = front.flatMap Piece.text ++ x)
    (hafter : after = y ++ back.flatMap Piece.text)
    (hclean : (scan (String.ofList (before ++ after))).reports = []) :
    ∃ front back, Parted before after front back := by
  obtain ⟨htokens, hproblems⟩ := scan_ofList (before ++ after)
  have htiles := ((Piece.tiles_iff (before ++ after) _).2 rfl).1
  rw [hproblems, hsplit] at hclean
  rw [hsplit] at htokens htiles
  subst hbefore hafter
  obtain ⟨hfront, hback⟩ := problemsFrom_append hclean
  have hfits : Fits (front.flatMap Piece.text) p (back.flatMap Piece.text) := htiles.of_append.1
  -- the whole piece is on one line
  have hmem := hfits.lineFeed_not_mem_of_blank (hform.imp_right Or.inl)
  have hmemX : '\n' ∉ x := fun h => hmem (hp ▸ List.mem_append_left y h)
  have hline := lineBehind_append_of_not_mem (front.flatMap Piece.text) hmem
  have hlineX := lineBehind_append_of_not_mem (front.flatMap Piece.text) hmemX
  have hpiece : ofPiece (lineBehind (front.flatMap Piece.text)) p =
      ofPiece (lineBehind (front.flatMap Piece.text)) ⟨p.form, x⟩ ++
        ofPiece (lineBehind (front.flatMap Piece.text)) ⟨p.form, y⟩ := by
    rcases hform with hform | hform <;> simp [ofPiece, hform, hp]
  rw [List.nil_append, problemsFrom_cons, ← lineBehind_piece, hline, List.append_eq_nil_iff] at hback
  refine ⟨tokensFrom (lineBehind []) front ++ ofPiece (lineBehind (front.flatMap Piece.text)) ⟨p.form, x⟩,
    ofPiece (lineBehind (front.flatMap Piece.text)) ⟨p.form, y⟩ ++
      tokensFrom (lineBehind (front.flatMap Piece.text)) back, ?_, ?_, ?_⟩
  · rw [htokens, tokensFrom_append, List.nil_append, tokensFrom_cons, ← lineBehind_piece, hline, hpiece]
    simp
  · intro rest ts hrest hreads
    obtain ⟨form, text⟩ := p
    obtain rfl : text = x ++ y := hp
    have hinitial := reads_blank_front hfits hform hx hrest hreads
    have hinter := hfits.interrupts hform hx (back.flatMap Piece.text) rest
    rw [← List.nil_append (front.flatMap Piece.text)] at hinitial
    have hall := Reads.front htiles hfront hinter hinitial
    rwa [← List.append_assoc, ← List.append_assoc] at hall
  · intro b ws hb hws
    rw [hlineX]
    obtain ⟨blanks, hblanks, hreads⟩ :=
      reads_blank_back htiles.of_append hform hp hy (problemsFrom_succ hback.2) hb hws
    refine ⟨blanks, hblanks, ?_⟩
    rwa [List.map_append, lowered_ofPiece, ← tokensFrom_succ]

theorem parted_of_boundary {before after : List Char} (hboundary : Boundary before after)
    (hclean : (scan (String.ofList (before ++ after))).reports = []) :
    ∃ front back, Parted before after front back := by
  have htext := Piece.flatMap_text_split (before ++ after)
  rcases pieces_at htext with ⟨front, back, hsplit, hbefore, hafter⟩ |
    ⟨front, p, back, x, y, hsplit, hp, hx, hy, hbefore, hafter⟩
  · exact parted_of_pieces hsplit hbefore hafter hclean
  · have hform := hboundary front p back x y hsplit hp hx hy hbefore
    exact parted_of_blanks hsplit hform hp hx hy hbefore hafter hclean

/-- **A line break put in.**  Put a line break and blanks into a text without problems, between two pieces or into
blanks.  The text in front of it has the tokens that the whole text has there; behind them there are leading blanks
now, and then the other tokens of the whole text, each one line further down; and nothing is wrong. -/
theorem scan_inserted {before after ws : List Char} (hboundary : Boundary before after)
    (hclean : (scan (String.ofList (before ++ after))).reports = []) (hws : ∀ c ∈ ws, Piece.isIndent c = true) :
    ∃ blanks back : List Token, (∀ t ∈ blanks, t.isIndentation = true) ∧
      (scan (String.ofList (before ++ after))).stream.tokens =
        (scan (String.ofList before)).stream.tokens ++ back ∧
      (scan (withBreak before ws after)).stream.tokens =
        (scan (String.ofList before)).stream.tokens ++ (blanks ++ back.map lowered) ∧
      (scan (withBreak before ws after)).reports = [] := by
  obtain ⟨front, back, hparted⟩ := parted_of_boundary hboundary hclean
  have hfront := hparted.front [] [] (Piece.interrupts_nil []) (Reads.nil before _)
  rw [List.append_nil, List.append_nil] at hfront
  obtain ⟨blanks, hblanks, hback⟩ := hparted.back (before ++ ['\n']) ws (Or.inr List.getLast?_concat) hws
  have hfeed : Reads before (lineBehind before) ('\n' :: (ws ++ after)) (blanks ++ back.map lowered) :=
    Reads.piece (p := ⟨.lineBreak, ['\n']⟩) .lineBreak rfl hback
  have hall := hparted.front _ _ (Piece.interrupts_lineFeed _ _) hfeed
  rw [withBreak, hfront.scan_eq, hall.scan_eq]
  exact ⟨blanks, back, hblanks, hparted.tokens, rfl, rfl⟩

end Offside.Token
