import Offside.Proofs.Token.Literals
import Offside.Proofs.Token.Moving
import Offside.Text.Lines

/-!
# Carriage returns

Lines may end with a carriage return in front of the line feed.  Outside strings the carriage return is a blank like
others: it becomes part of the gap or the comment in front of the line feed, or a gap of its own, and the tokens stay
as they are.  A string keeps it.

* `Text.pairBreaks` — a carriage return in front of every line feed;
* `Piece.Fits.pairBreaks` — the pieces other than line breaks, gaps and comments stay where they are;
* `scan_pairBreaks` — the tokens and reports of a text whose lines end so.
-/

set_option autoImplicit false

namespace Offside

/-! ## Pairs of line ends -/

namespace Text

/-- Writes a carriage return in front of every line feed. -/
def pairBreaks (cs : List Char) : List Char :=
  cs.flatMap fun c => if c = '\n' then ['\r', '\n'] else [c]

theorem pairBreaks_lineFeed (cs : List Char) : pairBreaks ('\n' :: cs) = '\r' :: '\n' :: pairBreaks cs := rfl

theorem pairBreaks_of_ne {c : Char} (hc : c ≠ '\n') (cs : List Char) : pairBreaks (c :: cs) = c :: pairBreaks cs := by
  rw [pairBreaks, List.flatMap_cons, if_neg hc]
  rfl

theorem pairBreaks_append (xs ys : List Char) : pairBreaks (xs ++ ys) = pairBreaks xs ++ pairBreaks ys :=
  List.flatMap_append

theorem pairBreaks_of_not_mem {cs : List Char} (h : '\n' ∉ cs) : pairBreaks cs = cs := by
  induction cs with
  | nil => rfl
  | cons c cs ih =>
    obtain ⟨hc, hcs⟩ := not_or.1 (mt List.mem_cons.2 h)
    rw [pairBreaks_of_ne (Ne.symm hc), ih hcs]

theorem count_pairBreaks (cs : List Char) : (pairBreaks cs).count '\n' = cs.count '\n' := by
  induction cs with
  | nil => rfl
  | cons c cs ih =>
    by_cases hc : c = '\n'
    · subst hc
      rw [pairBreaks_lineFeed, List.count_cons_of_ne (by decide), List.count_cons_self, List.count_cons_self, ih]
    · rw [pairBreaks_of_ne hc, List.count_cons_of_ne hc, List.count_cons_of_ne hc, ih]

theorem getLast?_pairBreaks (cs : List Char) : (pairBreaks cs).getLast? = cs.getLast? := by
  rcases List.eq_nil_or_concat cs with rfl | ⟨cs, c, rfl⟩
  · rfl
  · rw [List.concat_eq_append, pairBreaks_append, List.getLast?_concat]
    by_cases hc : c = '\n'
    · subst hc
      rw [pairBreaks_lineFeed, List.getLast?_append]
      rfl
    · rw [pairBreaks_of_ne hc, List.getLast?_append]
      rfl

/-- What begins with another character than a carriage return began with it before. -/
theorem exists_cons_of_pairBreaks {c : Char} {cs rest : List Char} (h : pairBreaks cs = c :: rest) (hc : c ≠ '\r') :
    ∃ back, cs = c :: back ∧ rest = pairBreaks back := by
  cases cs with
  | nil => cases h
  | cons d ds =>
    by_cases hd : d = '\n'
    · subst hd
      rw [pairBreaks_lineFeed] at h
      exact absurd (List.cons.inj h).1.symm hc
    · rw [pairBreaks_of_ne hd] at h
      obtain ⟨rfl, rfl⟩ := List.cons.inj h
      exact ⟨ds, rfl, rfl⟩

theorem mem_head?_of_pairBreaks {c : Char} {cs : List Char} (h : c ∈ (pairBreaks cs).head?) (hc : c ≠ '\r') :
    c ∈ cs.head? := by
  cases hcs : pairBreaks cs with
  | nil =>
    rw [hcs] at h
    cases h
  | cons d ds =>
    rw [hcs] at h
    cases h
    obtain ⟨back, rfl, -⟩ := exists_cons_of_pairBreaks hcs hc
    rfl

theorem head?_pairBreaks {cs : List Char} (h : cs.head? ≠ some '\n') : (pairBreaks cs).head? = cs.head? := by
  cases cs with
  | nil => rfl
  | cons c cs =>
    have hc : c ≠ '\n' := by
      rintro rfl
      exact h rfl
    rw [pairBreaks_of_ne hc]
    rfl

/-- Reading a file takes the carriage returns away again. -/
theorem unifyBreaks_pairBreaks {cs : List Char} (h : '\r' ∉ cs) : unifyBreaks (pairBreaks cs) = cs := by
  induction cs with
  | nil => rfl
  | cons c cs ih =>
    obtain ⟨hc, hcs⟩ := not_or.1 (mt List.mem_cons.2 h)
    by_cases hfeed : c = '\n'
    · subst hfeed
      rw [pairBreaks_lineFeed, unifyBreaks, ih hcs]
    · rw [pairBreaks_of_ne hfeed, unifyBreaks, ih hcs]
      · rintro rest rfl
        exact absurd rfl hc
      · exact Ne.symm hc

end Text

/-- A value whose text has paired line ends. -/
def Literal.pairBreaks : Literal → Literal
  | .text s => .text (String.ofList (Text.pairBreaks s.toList))
  | v => v

/-- A token with paired line ends; only strings have any. -/
def Token.pairBreaks (t : Token) : Token :=
  if t.kind = .string then
    { t with lexeme := String.ofList (Text.pairBreaks t.lexeme.toList), literal := t.literal.pairBreaks }
  else t

namespace Token

open Piece (Tiles Fits AtLineStart Sealed Stops Unpaired)
open Text (pairBreaks_lineFeed pairBreaks_of_ne pairBreaks_append pairBreaks_of_not_mem
  exists_cons_of_pairBreaks mem_head?_of_pairBreaks head?_pairBreaks)

/-- A piece with paired line ends. -/
def Piece.pairBreaks (p : Piece) : Piece :=
  ⟨p.form, Text.pairBreaks p.text⟩

/-! ## Strings -/

theorem Piece.Sealed.pairBreaks {body : List Char} (h : Sealed body) : Sealed (Text.pairBreaks body) := by
  induction body using Piece.closeString.induct with
  | case1 => exact Sealed.nil
  | case2 cs ih => exact (ih h.of_escaped).escaped
  | case3 cs => exact absurd rfl h.head_ne
  | case4 c cs hescaped _ ih =>
    have hcs := ih (h.of_cons hescaped)
    by_cases hc : c = '\n'
    · subst hc
      exact (hcs.cons (by decide)).cons (by decide)
    · rw [pairBreaks_of_ne hc]
      exact hcs.cons h.head_ne

theorem unescape_pairBreaks (cs : List Char) : unescape (Text.pairBreaks cs) = Text.pairBreaks (unescape cs) := by
  induction cs using unescape.induct with
  | case1 => rfl
  | case2 cs ih =>
    rw [pairBreaks_of_ne (by decide), pairBreaks_of_ne (by decide), unescape, unescape, ih,
      pairBreaks_of_ne (by decide)]
  | case3 c cs hescaped ih =>
    rw [unescape_of_ne hescaped]
    by_cases hc : c = '\n'
    · subst hc
      rw [pairBreaks_lineFeed, pairBreaks_lineFeed, unescape_of_ne (by rintro _ ⟨⟩), unescape_of_ne (by rintro _ ⟨⟩), ih]
    · rw [pairBreaks_of_ne hc, pairBreaks_of_ne hc, unescape_of_ne, ih]
      intro rest hback hquote
      obtain ⟨back, rfl, -⟩ := exists_cons_of_pairBreaks hquote (by decide)
      exact hescaped back hback rfl

theorem stringValue_pairBreaks (body : List Char) :
    stringValue (Text.pairBreaks ('"' :: (body ++ ['"']))) = Text.pairBreaks (stringValue ('"' :: (body ++ ['"']))) := by
  have hquote : Text.pairBreaks ['"'] = ['"'] := rfl
  rw [pairBreaks_of_ne (by decide), pairBreaks_append, hquote]
  rw [stringValue_of_body, stringValue_of_body, unescape_pairBreaks]

/-! ## Pieces -/

theorem Piece.Stops.pairBreaks {q : Char → Bool} {after : List Char} (hreturn : q '\r' = false)
    (h : Stops q after) : Stops q (Text.pairBreaks after) := by
  intro c hc
  by_cases hne : c = '\r'
  · rwa [hne]
  · exact h c (mem_head?_of_pairBreaks hc hne)

theorem Piece.Unpaired.pairBreaks {c : Char} {after : List Char} (h : Unpaired c after) :
    Unpaired c (Text.pairBreaks after) := by
  intro d hd
  by_cases hne : d = '\r'
  · subst hne
    unfold Piece.pairSign?
    split <;> first | rfl | contradiction
  · exact h d (mem_head?_of_pairBreaks hd hne)

/-- Only line breaks and strings change. -/
theorem Piece.Fits.pairBreaks_text {before after : List Char} {p : Piece} (h : Fits before p after)
    (hbreak : p.form ≠ .lineBreak) (hstring : p.form ≠ .string) (hopen : p.form ≠ .openString) :
    p.pairBreaks = p := by
  rw [Piece.pairBreaks, pairBreaks_of_not_mem (h.lineFeed_not_mem hbreak hstring hopen)]

/-- A piece stays where it is, unless a carriage return is put into it or is a part of it. -/
theorem Piece.Fits.pairBreaks {before after : List Char} {p : Piece} (h : Fits before p after)
    (hbreak : p.form ≠ .lineBreak) (hgap : p.form ≠ .gap) (hcomment : p.form ≠ .comment) :
    Fits before p.pairBreaks (Text.pairBreaks after) := by
  by_cases hstring : p.form = .string
  · cases h with
    | @string body _ hsealed hlast =>
      have htext : Text.pairBreaks ('"' :: (body ++ ['"'])) = '"' :: (Text.pairBreaks body ++ ['"']) := by
        rw [pairBreaks_of_ne (by decide), pairBreaks_append]
        rfl
      rw [Piece.pairBreaks, htext]
      refine .string hsealed.pairBreaks ?_
      rwa [Text.getLast?_pairBreaks]
    | _ => cases hstring
  by_cases hopen : p.form = .openString
  · cases h with
    | openString hsealed =>
      rw [Piece.pairBreaks, pairBreaks_of_ne (by decide)]
      exact .openString hsealed.pairBreaks
    | _ => cases hopen
  rw [h.pairBreaks_text hbreak hstring hopen]
  cases h with
  | lineBreak => exact absurd rfl hbreak
  | gap => exact absurd rfl hgap
  | comment => exact absurd rfl hcomment
  | string => exact absurd rfl hstring
  | openString => exact absurd rfl hopen
  | indentation hstart hrun hstops => exact .indentation hstart hrun (hstops.pairBreaks (by decide))
  | whole hrun hstops hpoint =>
    refine .whole hrun (hstops.pairBreaks (by decide)) ?_
    intro rest hrest
    obtain ⟨back, hback, rfl⟩ := exists_cons_of_pairBreaks hrest (by decide)
    exact (hpoint back hback).pairBreaks (by decide)
  | fraction hwhole hrun hstops => exact .fraction hwhole hrun (hstops.pairBreaks (by decide))
  | word hfirst hrun hstops => exact .word hfirst hrun (hstops.pairBreaks (by decide))
  | pair hsign => exact .pair hsign
  | single hsign hpair hslash =>
    refine .single hsign hpair.pairBreaks ?_
    intro hc hhead
    exact hslash hc (mem_head?_of_pairBreaks hhead (by decide))
  | stray hodd hpair => exact .stray hodd hpair.pairBreaks

theorem Piece.breaks_pairBreaks (p : Piece) : p.pairBreaks.breaks = p.breaks :=
  Text.count_pairBreaks p.text

/-- A gap or a comment in front of a line feed takes the carriage return. -/
theorem Piece.Fits.absorb {before rest : List Char} {p : Piece} (h : Fits before p ('\n' :: rest))
    (hform : p.form = .gap ∨ p.form = .comment) (rest' : List Char) :
    Fits before ⟨p.form, p.text ++ ['\r']⟩ ('\n' :: rest') := by
  have hstops : ∀ q : Char → Bool, q '\n' = false → Stops q ('\n' :: rest') := by
    rintro q hq c ⟨⟩
    exact hq
  cases h with
  | @gap c cs _ hstart hrun _ =>
    refine .gap hstart ?_ (hstops _ (by decide))
    intro d hd
    rcases List.mem_append.1 (show d ∈ (c :: cs) ++ ['\r'] from hd) with hd | hd
    · exact hrun d hd
    · rw [List.mem_singleton.1 hd]
      decide
  | comment hrun _ =>
    refine .comment ?_ (hstops _ (by decide))
    intro d hd
    rcases List.mem_append.1 hd with hd | hd
    · exact hrun d hd
    · rw [List.mem_singleton.1 hd]
      decide
  | _ => rcases hform with hform | hform <;> cases hform

/-- A gap or a comment that does not stand in front of a line feed stays as it is. -/
theorem Piece.Fits.stays {before after : List Char} {p : Piece} (h : Fits before p after)
    (hform : p.form = .gap ∨ p.form = .comment) (hafter : after.head? ≠ some '\n') :
    Fits before p (Text.pairBreaks after) := by
  have hstops : ∀ q : Char → Bool, Stops q after → Stops q (Text.pairBreaks after) := by
    intro q hq
    rwa [Stops, head?_pairBreaks hafter]
  cases h with
  | gap hstart hrun hq => exact .gap hstart hrun (hstops _ hq)
  | comment hrun hq => exact .comment hrun (hstops _ hq)
  | _ => rcases hform with hform | hform <;> cases hform

/-! ## Tokens and reports -/

theorem ofPiece_pairBreaks (line : Int) {before after : List Char} {p : Piece} (h : Fits before p after)
    (hbreak : p.form ≠ .lineBreak) : ofPiece line p.pairBreaks = (ofPiece line p).map Token.pairBreaks := by
  by_cases hstring : p.form = .string
  · cases h with
    | string =>
      simp only [ofPiece, Piece.pairBreaks, stringValue_pairBreaks, List.map_cons, List.map_nil, Token.pairBreaks,
        if_true, Literal.pairBreaks, String.toList_ofList]
    | _ => cases hstring
  have hsame : (ofPiece line p).map Token.pairBreaks = ofPiece line p := by
    have hid : ∀ t ∈ ofPiece line p, t.pairBreaks = id t := fun t ht => if_neg (ofPiece_ne_string h hstring ht)
    rw [List.map_congr_left hid, List.map_id]
  rw [hsame]
  by_cases hopen : p.form = .openString
  · simp only [ofPiece, Piece.pairBreaks, hopen]
  · rw [h.pairBreaks_text hbreak hstring hopen]

theorem problemsOf_pairBreaks (line : Int) {before after : List Char} {p : Piece} (h : Fits before p after)
    (hbreak : p.form ≠ .lineBreak) : problemsOf line p.pairBreaks = problemsOf line p := by
  by_cases hform : p.form = .openString
  · have hbreaks := p.breaks_pairBreaks
    simp only [problemsOf, show p.pairBreaks.form = p.form from rfl, hform, hbreaks]
  · by_cases hstring : p.form = .string
    · simp only [problemsOf, show p.pairBreaks.form = p.form from rfl, hstring]
    · rw [h.pairBreaks_text hbreak hstring hform]

theorem Piece.Fits.head?_ne_lineFeed {before after : List Char} {p : Piece} (h : Fits before p after)
    (hbreak : p.form ≠ .lineBreak) : p.text.head? ≠ some '\n' := by
  intro hhead
  rcases h.lineFeed_mem (List.mem_of_head? hhead) with hform | hform | hform
  · exact hbreak hform
  all_goals
    cases h with
    | string | openString => cases hhead
    | _ => cases hform

/-- A carriage return in front of a line feed shows nothing. -/
theorem ReadsAs.carriageReturn {before cs : List Char} {line : Int} {ts : List Token} {rs : List Report}
    (h : ReadsAs (before ++ ['\r']) line ('\n' :: cs) ts rs) : ReadsAs before line ('\r' :: '\n' :: cs) ts rs := by
  have hfits : Fits before ⟨.gap, ['\r']⟩ ('\n' :: cs) := by
    refine .gap (fun _ => by decide) ?_ ?_
    · intro d hd
      rw [List.mem_singleton.1 hd]
      decide
    · rintro d ⟨⟩
      decide
  exact ReadsAs.silent hfits (Or.inl rfl) h

/-- What a part of a text reads as when its lines end in pairs; and if it starts with a line feed, without the first
carriage return, which something in front of it may have taken. -/
theorem readsAs_pairBreaks {before : List Char} (line : Int) {ps : List Piece} (h : Tiles before ps) :
    let cs := ps.flatMap Piece.text
    let ts := (tokensFrom line ps).map Token.pairBreaks
    ReadsAs before line (Text.pairBreaks cs) ts (problemsFrom line ps) ∧
      ∀ rest, cs = '\n' :: rest → ReadsAs before line ('\n' :: Text.pairBreaks rest) ts (problemsFrom line ps) := by
  induction ps generalizing before line with
  | nil => exact ⟨ReadsAs.nil before line, nofun⟩
  | cons p ps ih =>
    obtain ⟨hfits, htiles⟩ := h
    by_cases hbreak : p.form = .lineBreak
    · obtain rfl := hfits.eq_lineBreak hbreak
      have hfeed := (ih (line + 1) htiles).1.lineFeed (Or.inr List.getLast?_concat)
      refine ⟨(hfeed _).carriageReturn, ?_⟩
      intro rest heq
      rw [← (List.cons.inj heq).2]
      exact hfeed before
    refine ⟨?_, ?_⟩
    · show ReadsAs before line (Text.pairBreaks (p.text ++ ps.flatMap Piece.text)) _ _
      rw [pairBreaks_append]
      by_cases hform : p.form = .gap ∨ p.form = .comment
      · obtain ⟨htokens, hproblems⟩ := from_cons_of_silent hfits hform line ps
        have hmem := hfits.lineFeed_not_mem_of_blank (hform.imp_right Or.inr)
        obtain ⟨hreads, htaken⟩ := ih line htiles
        rw [htokens, hproblems, pairBreaks_of_not_mem hmem]
        by_cases hafter : (ps.flatMap Piece.text).head? = some '\n'
        · -- the next piece is a line feed, and its carriage return becomes part of this one
          obtain ⟨rest, hrest⟩ := List.head?_eq_some_iff.1 hafter
          rw [hrest] at hfits
          have hline : ¬AtLineStart (before ++ p.text) := Piece.not_atLineStart_append hfits.text_ne_nil hmem
          have hline' : ¬AtLineStart (before ++ (p.text ++ ['\r'])) := by
            rw [← List.append_assoc]
            exact Piece.not_atLineStart_append nofun (by decide)
          have htaken := (htaken rest hrest).rebase (iff_of_false hline hline')
          have htext : p.text ++ Text.pairBreaks ('\n' :: rest) = p.text ++ ['\r'] ++ '\n' :: Text.pairBreaks rest := by
            rw [pairBreaks_lineFeed, List.append_assoc]
            rfl
          rw [hrest, htext]
          exact ReadsAs.silent (hfits.absorb hform _) hform htaken
        · exact ReadsAs.silent (hfits.stays hform hafter) hform hreads
      · have hmoved := hfits.pairBreaks hbreak (fun h => hform (Or.inl h)) (fun h => hform (Or.inr h))
        have hline : AtLineStart (before ++ p.text) ↔ AtLineStart (before ++ p.pairBreaks.text) := by
          rw [Piece.atLineStart_append hfits.text_ne_nil, Piece.atLineStart_append hmoved.text_ne_nil]
          rw [Piece.pairBreaks, Text.getLast?_pairBreaks]
        have hreads := (ih (line + Int.ofNat p.breaks) htiles).1.rebase hline
        rw [← p.breaks_pairBreaks] at hreads
        have hpiece := ReadsAs.piece hmoved hreads
        rw [ofPiece_pairBreaks line hfits hbreak, problemsOf_pairBreaks line hfits hbreak, p.breaks_pairBreaks,
          ← List.map_append] at hpiece
        exact hpiece
    · intro rest heq
      have hhead := hfits.head?_ne_lineFeed hbreak
      have htext : (p.text ++ ps.flatMap Piece.text).head? = some '\n' := congrArg List.head? heq
      rw [List.head?_append_of_ne_nil _ hfits.text_ne_nil] at htext
      exact absurd htext hhead

/-- The tokens of a text whose lines end in pairs. -/
theorem scan_ofList_pairBreaks (source : String) :
    scan (String.ofList (Text.pairBreaks source.toList)) =
      ⟨⟨(scan source).stream.tokens.map Token.pairBreaks, (scan source).stream.endLine⟩, (scan source).reports⟩ := by
  obtain ⟨htiles, htext⟩ := (Piece.tiles_iff source.toList (Piece.split source.toList)).2 rfl
  have hreads := (readsAs_pairBreaks 1 htiles).1
  rw [htext] at hreads
  rw [hreads.scan_eq, lineBehind, Text.count_pairBreaks]
  rfl

/-! ## One program for editors and files -/

/-- A token on one line is the same in both texts. -/
theorem pairBreaks_of_mem_scan {source : String} {t : Token} (ht : t ∈ (scan source).stream.tokens)
    (hmem : '\n' ∉ t.lexeme.toList) : t.pairBreaks = t := by
  by_cases hkind : t.kind = .string
  · obtain ⟨text, -, hliteral, hlexeme⟩ := encoded_of_mem_scan ht hkind
    have htext : '\n' ∉ text.toList := by
      intro htext
      apply hmem
      have hlines := lineBehind_encode text
      rw [← hlexeme, lineBehind, lineBehind, Int.ofNat_eq_natCast, Int.ofNat_eq_natCast] at hlines
      have := List.count_pos_iff.2 htext
      exact List.count_pos_iff.1 (by omega)
    rw [Token.pairBreaks, if_pos hkind, pairBreaks_of_not_mem hmem, hliteral, Literal.pairBreaks,
      pairBreaks_of_not_mem htext, String.ofList_toList, String.ofList_toList, ← hliteral]
  · exact if_neg hkind

/-- A file of a text whose lines end in pairs holds the text. -/
theorem ofBytes?_pairBreaks {source : String} (h : '\r' ∉ source.toList) :
    Text.ofBytes? (String.ofList (Text.pairBreaks source.toList)).toUTF8 = some source := by
  have hbytes : ∀ s : String, String.fromUTF8? s.toUTF8 = some s := by
    intro s
    simp only [String.fromUTF8?, String.toUTF8_eq_toByteArray, dif_pos s.isValidUTF8]
    rfl
  rw [Text.ofBytes?, hbytes, Option.map_some, String.toList_ofList, Text.unifyBreaks_pairBreaks h,
    String.ofList_toList]

/-- **Carriage returns.**  A text whose lines end with a carriage return and a line feed has the same tokens and
reports as the text with line feeds alone, and ends on the same line, except that a string over several lines has the
carriage returns in its characters and in its value.  A file with such lines is read as the text with line feeds
alone, unless that has carriage returns of its own; so an editor that holds the one and a reader of the file, who sees
the other, see the same program. -/
theorem scan_pairBreaks (source : String) :
    scan (String.ofList (Text.pairBreaks source.toList)) =
      ⟨⟨(scan source).stream.tokens.map Token.pairBreaks, (scan source).stream.endLine⟩, (scan source).reports⟩ ∧
    (∀ t ∈ (scan source).stream.tokens, '\n' ∉ t.lexeme.toList → t.pairBreaks = t) ∧
    ('\r' ∉ source.toList →
      Text.ofBytes? (String.ofList (Text.pairBreaks source.toList)).toUTF8 = some source) :=
  ⟨scan_ofList_pairBreaks source, fun _ => pairBreaks_of_mem_scan, ofBytes?_pairBreaks⟩

/-- A string over two lines, a comment, and a string that is not closed. -/
def carriageText : String :=
  "\"a\nb\" // c\n\"\\\n"

theorem scan_pairBreaks_carriageText :
    scan "\"a\r\nb\" // c\r\n\"\\\r\n" =
      ⟨⟨[⟨.string, "\"a\r\nb\"", .text "a\r\nb", 1⟩], 4⟩, [Report.onLine (some 4) .unterminatedString]⟩ ∧
    Text.ofBytes? "\"a\r\nb\" // c\r\n\"\\\r\n".toUTF8 = some carriageText := by
  obtain ⟨hscan, -, hbytes⟩ := scan_pairBreaks carriageText
  exact ⟨hscan.trans rfl, hbytes (by decide +kernel)⟩

end Token
end Offside
