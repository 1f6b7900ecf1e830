import Mathlib.Data.List.TakeWhile
import Offside.Token.Piece

/-!
# Which piece stands where

Where a text is cut depends on what stands before a place and behind it.  `Piece.Fits` says so for each form of
piece in its own words: runs are as long as they can be, a string ends at the first quote that does not stand
right behind a backslash, a sign of two characters goes before the sign of one.  The pieces of a text are then
the only ones that fit, one behind the other, from its start to its end.

* `Piece.Fits`, `Piece.Tiles` — where a piece fits, and lists of pieces that fit together;
* `Piece.fits_cut`, `Piece.cut_of_fits` — the piece that is cut off is the one that fits;
* `Piece.tiles_iff` — a text is tiled by its pieces and by no others.
-/

set_option autoImplicit false

namespace Offside.Token.Piece

open Text (isDigit)

/-! ## Fitting pieces -/

/-- The start of the text, or a place behind a line feed. -/
def AtLineStart (before : List Char) : Prop :=
  before = [] ∨ before.getLast? = some '\n'

/-- A run of characters that satisfy `p` does not go on in the text behind it. -/
def Stops (p : Char → Bool) (after : List Char) : Prop :=
  ∀ c ∈ after.head?, p c = false

/-- Every quote stands right behind a backslash. -/
def Sealed (body : List Char) : Prop :=
  ∀ front back, body = front ++ '"' :: back → front.getLast? = some '\\'

/-- The character and the one behind it make no sign of two characters. -/
def Unpaired (c : Char) (after : List Char) : Prop :=
  ∀ d ∈ after.head?, pairSign? c d = none

/-- Neither a blank nor the first character of a number, a string or a word. -/
structure Plain (c : Char) : Prop where
  lineFeed : c ≠ '\n'
  gap : isGap c = false
  digit : isDigit c = false
  quote : c ≠ '"'
  word : startsWord c = false

/-- A character that starts no piece of another form, unless it is the first one of a sign of two characters. -/
structure Odd (c : Char) : Prop extends Plain c where
  sign : singleSign? c = none

/-- A piece that fits between two parts of a text. -/
inductive Fits (before : List Char) : Piece → List Char → Prop where
  | lineBreak {after : List Char} : Fits before ⟨.lineBreak, ['\n']⟩ after
  | indentation {c : Char} {cs after : List Char} (hstart : AtLineStart before)
      (hrun : ∀ d ∈ c :: cs, isIndent d = true) (hstops : Stops isIndent after) :
      Fits before ⟨.indentation, c :: cs⟩ after
  | gap {c : Char} {cs after : List Char} (hstart : AtLineStart before → isIndent c = false)
      (hrun : ∀ d ∈ c :: cs, isGap d = true) (hstops : Stops isGap after) : Fits before ⟨.gap, c :: cs⟩ after
  | comment {cs after : List Char} (hrun : ∀ d ∈ cs, d ≠ '\n') (hstops : Stops (· != '\n') after) :
      Fits before ⟨.comment, '/' :: '/' :: cs⟩ after
  | whole {c : Char} {cs after : List Char} (hrun : ∀ d ∈ c :: cs, isDigit d = true)
      (hstops : Stops isDigit after) (hpoint : ∀ rest, after = '.' :: rest → Stops isDigit rest) :
      Fits before ⟨.number, c :: cs⟩ after
  | fraction {c d : Char} {cs ds after : List Char} (hwhole : ∀ e ∈ c :: cs, isDigit e = true)
      (hrun : ∀ e ∈ d :: ds, isDigit e = true) (hstops : Stops isDigit after) :
      Fits before ⟨.number, c :: cs ++ '.' :: d :: ds⟩ after
  | string {body after : List Char} (hsealed : Sealed body) (hcloses : body.getLast? ≠ some '\\') :
      Fits before ⟨.string, '"' :: (body ++ ['"'])⟩ after
  | openString {body : List Char} (hsealed : Sealed body) : Fits before ⟨.openString, '"' :: body⟩ []
  | word {c : Char} {cs after : List Char} (hfirst : startsWord c = true) (hrun : ∀ d ∈ cs, inWord d = true)
      (hstops : Stops inWord after) : Fits before ⟨.word, c :: cs⟩ after
  | pair {c d : Char} {kind : Kind} {after : List Char} (hsign : pairSign? c d = some kind) :
      Fits before ⟨.sign kind, [c, d]⟩ after
  | single {c : Char} {kind : Kind} {after : List Char} (hsign : singleSign? c = some kind)
      (hpair : Unpaired c after) (hcomment : c = '/' → after.head? ≠ some '/') :
      Fits before ⟨.sign kind, [c]⟩ after
  | stray {c : Char} {after : List Char} (hodd : Odd c) (hpair : Unpaired c after) :
      Fits before ⟨.stray, [c]⟩ after

/-- Pieces that fit one behind the other, the last one at the end of the text. -/
def Tiles (before : List Char) : List Piece → Prop
  | [] => True
  | p :: ps => p.Fits before (ps.flatMap text) ∧ Tiles (before ++ p.text) ps

/-! ## Runs -/

theorem stops_dropWhile (p : Char → Bool) (cs : List Char) : Stops p (cs.dropWhile p) := by
  intro c hc
  have h := List.head?_dropWhile_not p cs
  rw [Option.mem_def.1 hc] at h
  exact h

theorem takeWhile_of_stops {p : Char → Bool} {run after : List Char} (hrun : ∀ c ∈ run, p c = true)
    (hstops : Stops p after) : (run ++ after).takeWhile p = run := by
  rw [List.takeWhile_append_of_pos hrun]
  cases after with
  | nil => simp
  | cons c cs => simp [hstops c rfl]

theorem dropWhile_of_stops {p : Char → Bool} {run after : List Char} (hrun : ∀ c ∈ run, p c = true)
    (hstops : Stops p after) : (run ++ after).dropWhile p = after := by
  rw [List.dropWhile_append_of_pos hrun]
  cases after with
  | nil => rfl
  | cons c cs => simp [hstops c rfl]

theorem run_of_stops {form : Form} {p : Char → Bool} {c : Char} {cs after : List Char}
    (hrun : ∀ d ∈ cs, p d = true) (hstops : Stops p after) :
    run form p c (cs ++ after) = (⟨form, c :: cs⟩, after) := by
  rw [run, takeWhile_of_stops hrun hstops, dropWhile_of_stops hrun hstops]

theorem forall_mem_run {p : Char → Bool} {c : Char} (hc : p c = true) (cs : List Char) :
    ∀ d ∈ c :: cs.takeWhile p, p d = true := by
  intro d hd
  rcases List.mem_cons.1 hd with rfl | hd
  · exact hc
  · exact List.mem_takeWhile_imp hd

/-! ## Strings -/

theorem Sealed.nil : Sealed [] := by
  intro front back h
  cases front <;> cases h

/-- A character goes in front of a sealed text unless it is a quote. -/
theorem Sealed.cons {c : Char} {cs : List Char} (hc : c ≠ '"') (h : Sealed cs) : Sealed (c :: cs) := by
  intro front back heq
  cases front with
  | nil => exact absurd (List.cons.inj heq).1 hc
  | cons d front =>
    obtain ⟨-, heq⟩ := List.cons.inj heq
    have hlast := h front back heq
    rw [List.getLast?_cons, hlast]
    rfl

/-- A quote is sealed off by the backslash in front of it. -/
theorem Sealed.escaped {cs : List Char} (h : Sealed cs) : Sealed ('\\' :: '"' :: cs) := by
  intro front back heq
  cases front with
  | nil => cases (List.cons.inj heq).1
  | cons d front =>
    obtain ⟨rfl, hquote⟩ := List.cons.inj heq
    cases front with
    | nil => rfl
    | cons e front =>
      have hlast := h front back (List.cons.inj hquote).2
      rw [List.getLast?_cons_cons, List.getLast?_cons, hlast]
      rfl

theorem Sealed.of_cons {c : Char} {cs : List Char} (h : Sealed (c :: cs))
    (hc : ∀ back, c = '\\' → cs = '"' :: back → False) : Sealed cs := by
  intro front back heq
  have hlast := h (c :: front) back (by rw [heq]; rfl)
  cases front with
  | nil => exact (hc back (Option.some.inj hlast) heq).elim
  | cons d front => rwa [List.getLast?_cons_cons] at hlast

theorem Sealed.of_escaped {cs : List Char} (h : Sealed ('\\' :: '"' :: cs)) : Sealed cs := by
  intro front back heq
  have hlast := h ('\\' :: '"' :: front) back (by rw [heq]; rfl)
  cases front with
  | nil => cases hlast
  | cons d front => rwa [List.getLast?_cons_cons, List.getLast?_cons_cons] at hlast

theorem Sealed.head_ne {c : Char} {cs : List Char} (h : Sealed (c :: cs)) : c ≠ '"' := by
  rintro rfl
  cases h [] cs rfl

/-- The quote that ends a string is the first one that does not stand right behind a backslash. -/
theorem sealed_of_closeString {cs : List Char} {r : List Char × List Char} (h : closeString cs = some r) :
    ∃ body, r.1 = body ++ ['"'] ∧ Sealed body ∧ body.getLast? ≠ some '\\' := by
  fun_induction closeString cs generalizing r with
  | case1 => cases h
  | case2 cs ih =>
    obtain ⟨s, hs, rfl⟩ := Option.map_eq_some_iff.1 h
    obtain ⟨body, hbody, hsealed, hlast⟩ := ih hs
    refine ⟨'\\' :: '"' :: body, by rw [hbody]; rfl, hsealed.escaped, ?_⟩
    cases body with
    | nil => decide
    | cons c cs => rwa [List.getLast?_cons_cons, List.getLast?_cons_cons]
  | case3 cs =>
    cases h
    exact ⟨[], rfl, Sealed.nil, by decide⟩
  | case4 c cs hescaped hquote ih =>
    obtain ⟨s, hs, rfl⟩ := Option.map_eq_some_iff.1 h
    obtain ⟨body, hbody, hsealed, hlast⟩ := ih hs
    refine ⟨c :: body, by rw [hbody]; rfl, hsealed.cons hquote, ?_⟩
    cases body with
    | nil =>
      -- the closing quote comes next, so it is not behind a backslash
      rintro ⟨⟩
      have happ := closeString_append hs
      rw [hbody] at happ
      exact hescaped s.2 rfl happ.symm
    | cons d ds => rwa [List.getLast?_cons_cons]

theorem sealed_of_closeString_none {cs : List Char} (h : closeString cs = none) : Sealed cs := by
  fun_induction closeString cs with
  | case1 => exact Sealed.nil
  | case2 cs ih => exact (ih (Option.map_eq_none_iff.1 h)).escaped
  | case3 cs => cases h
  | case4 c cs _ hquote ih => exact (ih (Option.map_eq_none_iff.1 h)).cons hquote

theorem closeString_of_sealed {body : List Char} (hsealed : Sealed body) (hlast : body.getLast? ≠ some '\\')
    (after : List Char) : closeString (body ++ '"' :: after) = some (body ++ ['"'], after) := by
  induction body using closeString.induct with
  | case1 => rfl
  | case2 cs ih =>
    have hlast' : cs.getLast? ≠ some '\\' := by
      cases cs with
      | nil => nofun
      | cons d ds => rwa [List.getLast?_cons_cons, List.getLast?_cons_cons] at hlast
    have hclose := ih hsealed.of_escaped hlast'
    simp only [List.cons_append, closeString, hclose, Option.map_some]
  | case3 cs => exact absurd rfl hsealed.head_ne
  | case4 c cs hescaped hquote ih =>
    cases cs with
    | nil =>
      have hc : c ≠ '\\' := by
        rintro rfl
        exact hlast rfl
      simp [closeString, hc]
    | cons d ds =>
      rw [List.getLast?_cons_cons] at hlast
      have hclose := ih (hsealed.of_cons hescaped) hlast
      rw [List.cons_append, closeString, hclose, Option.map_some]
      · rfl
      · intro back hc heq
        exact hescaped ds hc (by rw [(List.cons.inj heq).1])
      · exact hquote

theorem closeString_eq_none_of_sealed {cs : List Char} (h : Sealed cs) : closeString cs = none := by
  induction cs using closeString.induct with
  | case1 => rfl
  | case2 cs ih => simp only [closeString, ih h.of_escaped, Option.map_none]
  | case3 cs => exact absurd rfl h.head_ne
  | case4 c cs hescaped hquote ih =>
    rw [closeString, ih (h.of_cons hescaped), Option.map_none]
    · exact hescaped
    · exact hquote

/-! ## Numbers and words -/

/-- Digits are those of ASCII or lie far behind it. -/
theorem toNat_of_isDigit {c : Char} (h : isDigit c = true) :
    48 ≤ c.toNat ∧ c.toNat < 58 ∨ 0x660 ≤ c.toNat := by
  obtain ⟨d, hd⟩ := Option.isSome_iff_exists.1 h
  obtain ⟨first, hmem, hfirst⟩ := List.exists_of_findSome?_eq_some hd
  have hrange : first ≤ c.toNat ∧ c.toNat < first + 10 := by
    unfold Text.offsetFrom at hfirst
    split at hfirst
    · assumption
    · cases hfirst
  have hcases : first = 48 ∨ 0x660 ≤ first := by
    have hall : ∀ z ∈ Text.zeros, z = 48 ∨ 0x660 ≤ z := by decide
    exact hall first hmem
  omega

theorem toNat_of_startsWord {c : Char} (h : startsWord c = true) :
    65 ≤ c.toNat ∧ c.toNat ≤ 122 := by
  -- the letters by their ranges
  have hranges : (decide (c.val ≥ 'A'.val ∧ c.val ≤ 'Z'.val) ||
      (decide (c.val ≥ 'a'.val) && decide (c.val ≤ 'z'.val)) || c == '_') = true := h
  simp only [Bool.or_eq_true, Bool.and_eq_true, decide_eq_true_eq, beq_iff_eq, ge_iff_le,
    UInt32.le_iff_toNat_le] at hranges
  rcases hranges with (⟨h1, h2⟩ | ⟨h1, h2⟩) | rfl
  · exact ⟨h1, Nat.le_trans h2 (by decide)⟩
  · exact ⟨Nat.le_trans (by decide) h1, h2⟩
  · decide

theorem isDigit_of_startsWord {c : Char} (h : startsWord c = true) : isDigit c = false := by
  rw [Bool.eq_false_iff]
  intro hd
  have := toNat_of_startsWord h
  have := toNat_of_isDigit hd
  omega

/-! ## The piece that is cut off -/

variable {before : List Char}

theorem fits_numberFrom {c : Char} (hc : isDigit c = true) (cs : List Char) :
    Fits before (numberFrom c cs).1 (numberFrom c cs).2 := by
  have hstops := stops_dropWhile isDigit cs
  have hrun := forall_mem_run hc cs
  unfold numberFrom fraction
  split
  · next d ds heq =>
    split
    · next hd => exact .fraction hrun (forall_mem_run hd ds) (stops_dropWhile isDigit ds)
    · next hd =>
      rw [heq] at hstops
      simp only [List.append_nil]
      refine .whole hrun hstops ?_
      rintro rest ⟨⟩ e ⟨⟩
      exact Bool.eq_false_iff.2 hd
  · next hpoint =>
    simp only [List.append_nil]
    refine .whole hrun hstops ?_
    intro rest heq d hd
    cases rest with
    | nil => cases hd
    | cons e rest => exact (hpoint e rest heq).elim

theorem fraction_of_stops {after : List Char} (h : ∀ rest, after = '.' :: rest → Stops isDigit rest) :
    fraction after = ([], after) := by
  unfold fraction
  split
  · next d ds =>
    rw [if_neg]
    rw [h (d :: ds) rfl d rfl]
    nofun
  · rfl

theorem numberFrom_of_whole {c : Char} {cs after : List Char} (hcs : ∀ d ∈ cs, isDigit d = true)
    (hstops : Stops isDigit after) (hpoint : ∀ rest, after = '.' :: rest → Stops isDigit rest) :
    numberFrom c (cs ++ after) = (⟨.number, c :: cs⟩, after) := by
  have hfraction : fraction after = ([], after) := fraction_of_stops hpoint
  simp only [numberFrom, takeWhile_of_stops hcs hstops, dropWhile_of_stops hcs hstops, hfraction, List.append_nil]

theorem numberFrom_of_fraction {c d : Char} {cs ds after : List Char} (hcs : ∀ e ∈ cs, isDigit e = true)
    (hds : ∀ e ∈ d :: ds, isDigit e = true) (hstops : Stops isDigit after) :
    numberFrom c (cs ++ '.' :: d :: (ds ++ after)) = (⟨.number, c :: cs ++ '.' :: d :: ds⟩, after) := by
  have hpoint : Stops isDigit ('.' :: d :: (ds ++ after)) := by
    rintro e ⟨⟩
    decide
  have hmore := fun e he => hds e (List.mem_cons_of_mem d he)
  simp only [numberFrom, takeWhile_of_stops hcs hpoint, dropWhile_of_stops hcs hpoint, fraction,
    hds d List.mem_cons_self, if_true, takeWhile_of_stops hmore hstops, dropWhile_of_stops hmore hstops]

theorem fits_stringFrom (cs : List Char) :
    Fits before (stringFrom '"' cs).1 (stringFrom '"' cs).2 := by
  unfold stringFrom
  cases h : closeString cs with
  | none => exact .openString (sealed_of_closeString_none h)
  | some r =>
    obtain ⟨body, hbody, hsealed, hlast⟩ := sealed_of_closeString h
    simp only [hbody]
    exact .string hsealed hlast

theorem unpaired_of_bind {c : Char} {cs : List Char} (h : cs.head?.bind (pairSign? c) = none) :
    Unpaired c cs := by
  intro d hd
  rwa [Option.mem_def.1 hd, Option.bind_some] at h

theorem fits_signFrom {c : Char} {cs : List Char} (hcomment : c = '/' → cs.head? ≠ some '/')
    (hodd : singleSign? c = none → Odd c) : Fits before (signFrom c cs).1 (signFrom c cs).2 := by
  unfold signFrom
  split
  · next kind hkind =>
    obtain ⟨d, hd, hsign⟩ := Option.bind_eq_some_iff.1 hkind
    cases cs with
    | nil => cases hd
    | cons e cs =>
      cases hd
      exact .pair hsign
  · next hnone =>
    have hpair := unpaired_of_bind hnone
    split
    · next hsign => exact .single hsign hpair hcomment
    · next hsign => exact .stray (hodd hsign) hpair

/-- What is cut off fits. -/
theorem fits_cut {lineStart : Bool} (hstart : lineStart = true ↔ AtLineStart before) (c : Char) (cs : List Char) :
    Fits before (cut lineStart c cs).1 (cut lineStart c cs).2 := by
  unfold cut
  split
  · next hc =>
    rw [hc]
    exact .lineBreak
  next hbreak =>
  split
  · next hindent =>
    rw [Bool.and_eq_true, hstart] at hindent
    exact .indentation hindent.1 (forall_mem_run hindent.2 cs) (stops_dropWhile isIndent cs)
  next hindent =>
  split
  · next hgap =>
    refine .gap ?_ (forall_mem_run hgap cs) (stops_dropWhile isGap cs)
    intro hline
    simpa [hstart.2 hline] using hindent
  next hgap =>
  split
  · next hcomment =>
    rw [Bool.and_eq_true, beq_iff_eq, beq_iff_eq] at hcomment
    obtain ⟨rfl, hslash⟩ := hcomment
    cases cs with
    | nil => cases hslash
    | cons d cs =>
      cases hslash
      refine .comment ?_ (stops_dropWhile (· != '\n') cs)
      intro d hd
      have hne := List.mem_takeWhile_imp hd
      exact bne_iff_ne.1 hne
  next hcomment =>
  split
  · next hdigit => exact fits_numberFrom hdigit cs
  next hdigit =>
  split
  · next hquote =>
    rw [eq_of_beq hquote]
    exact fits_stringFrom cs
  next hquote =>
  split
  · next hword => exact .word hword (fun d hd => List.mem_takeWhile_imp hd) (stops_dropWhile inWord cs)
  next hword =>
  refine fits_signFrom ?_ ?_
  · rintro rfl hslash
    rw [hslash] at hcomment
    exact hcomment rfl
  · intro hsign
    rw [Bool.not_eq_true] at hgap hdigit hword
    have hne : c ≠ '"' := by
      rintro rfl
      exact hquote rfl
    exact ⟨⟨hbreak, hgap, hdigit, hne, hword⟩, hsign⟩

/-! ## Only one piece fits -/

section

variable (lineStart : Bool) {c : Char} (cs : List Char)

theorem cut_of_isIndent (hc : isIndent c = true) : cut true c cs = run .indentation isIndent c cs := by
  have hne : c ≠ '\n' := by
    rintro rfl
    cases hc
  rw [cut, if_neg hne, if_pos (by rw [hc]; rfl)]

theorem cut_of_isGap (hc : isGap c = true) (hindent : lineStart = true → isIndent c = false) :
    cut lineStart c cs = run .gap isGap c cs := by
  have hne : c ≠ '\n' := by
    rintro rfl
    cases hc
  have hnot : ¬(lineStart && isIndent c) = true := by
    rw [Bool.and_eq_true]
    rintro ⟨hstart, hblank⟩
    rw [hindent hstart] at hblank
    cases hblank
  rw [cut, if_neg hne, if_neg hnot, if_pos hc]

theorem cut_of_isDigit (hc : isDigit c = true) : cut lineStart c cs = numberFrom c cs := by
  have hne : ∀ d, isDigit d = false → c ≠ d := by
    rintro d hd rfl
    rw [hc] at hd
    cases hd
  simp [cut, isIndent, isGap, hc, hne '\n' (by decide), hne ' ' (by decide), hne '\t' (by decide),
    hne '\r' (by decide), hne '/' (by decide)]

theorem cut_of_startsWord (hc : startsWord c = true) : cut lineStart c cs = run .word inWord c cs := by
  have hne : ∀ d, startsWord d = false → c ≠ d := by
    rintro d hd rfl
    rw [hc] at hd
    cases hd
  simp [cut, isIndent, isGap, hc, isDigit_of_startsWord hc, hne '\n' (by decide), hne ' ' (by decide),
    hne '\t' (by decide), hne '\r' (by decide), hne '/' (by decide), hne '"' (by decide)]

theorem cut_of_quote : cut lineStart '"' cs = stringFrom '"' cs := by
  cases lineStart <;> rfl

theorem cut_of_slash : cut lineStart '/' ('/' :: cs) = run .comment (· != '\n') '/' ('/' :: cs) := by
  cases lineStart <;> rfl

theorem isIndent_of_isGap {c : Char} (h : isGap c = false) : isIndent c = false := by
  simp [isGap] at h
  simp [isIndent, h]

theorem cut_of_plain (hc : Plain c) (hcomment : c = '/' → cs.head? ≠ some '/') :
    cut lineStart c cs = signFrom c cs := by
  have hslash : (c == '/' && cs.head? == some '/') = false := by
    rw [Bool.eq_false_iff, ne_eq, Bool.and_eq_true, beq_iff_eq, beq_iff_eq]
    rintro ⟨hc, hcs⟩
    exact hcomment hc hcs
  simp [cut, hc.lineFeed, hc.gap, isIndent_of_isGap hc.gap, hslash, hc.digit, hc.quote, hc.word]

end

theorem plain_of_singleSign? {c : Char} {kind : Kind} (h : singleSign? c = some kind) : Plain c := by
  unfold singleSign? at h
  split at h
  all_goals first
    | exact ⟨by decide, by decide, by decide, by decide, by decide⟩
    | cases h

theorem plain_of_pairSign? {c d : Char} {kind : Kind} (h : pairSign? c d = some kind) :
    Plain c ∧ c ≠ '/' := by
  unfold pairSign? at h
  split at h
  all_goals first
    | exact ⟨⟨by decide, by decide, by decide, by decide, by decide⟩, by decide⟩
    | cases h

theorem Unpaired.bind {c : Char} {after : List Char} (h : Unpaired c after) :
    after.head?.bind (pairSign? c) = none := by
  cases after with
  | nil => rfl
  | cons d ds => exact h d rfl

/-- The piece that fits is the one that is cut off. -/
theorem cut_of_fits {lineStart : Bool} (hstart : lineStart = true ↔ AtLineStart before) {p : Piece}
    {after : List Char} (h : Fits before p after) {c : Char} {cs : List Char} (htext : p.text ++ after = c :: cs) :
    cut lineStart c cs = (p, after) := by
  cases h with
  | lineBreak =>
    cases htext
    rfl
  | indentation hline hrun hstops =>
    cases htext
    rw [hstart.2 hline, cut_of_isIndent _ (hrun c List.mem_cons_self)]
    exact run_of_stops (fun d hd => hrun d (List.mem_cons_of_mem c hd)) hstops
  | gap hline hrun hstops =>
    cases htext
    rw [cut_of_isGap lineStart _ (hrun c List.mem_cons_self) fun h => hline (hstart.1 h)]
    exact run_of_stops (fun d hd => hrun d (List.mem_cons_of_mem c hd)) hstops
  | @comment cs after hrun hstops =>
    cases htext
    show cut lineStart '/' ('/' :: (cs ++ after)) = _
    rw [cut_of_slash]
    have hline : ∀ d ∈ '/' :: cs, (d != '\n') = true := by
      intro d hd
      rcases List.mem_cons.1 hd with rfl | hd
      · rfl
      · exact bne_iff_ne.2 (hrun d hd)
    exact run_of_stops hline hstops
  | whole hrun hstops hpoint =>
    cases htext
    rw [cut_of_isDigit lineStart _ (hrun c List.mem_cons_self)]
    exact numberFrom_of_whole (fun d hd => hrun d (List.mem_cons_of_mem c hd)) hstops hpoint
  | @fraction c d cs ds after hwhole hrun hstops =>
    cases htext
    rw [cut_of_isDigit lineStart _ (hwhole c List.mem_cons_self)]
    have hnumber := numberFrom_of_fraction (c := c) (fun e he => hwhole e (List.mem_cons_of_mem c he)) hrun hstops
    simp only [List.append_eq, List.append_assoc, List.cons_append, hnumber]
  | string hsealed hlast =>
    cases htext
    rw [cut_of_quote, stringFrom]
    simp only [List.append_eq, List.append_assoc, List.singleton_append, closeString_of_sealed hsealed hlast]
  | openString hsealed =>
    cases htext
    rw [cut_of_quote, stringFrom]
    simp only [List.append_eq, List.append_nil, closeString_eq_none_of_sealed hsealed]
  | word hfirst hrun hstops =>
    cases htext
    rw [cut_of_startsWord lineStart _ hfirst]
    exact run_of_stops hrun hstops
  | pair hsign =>
    cases htext
    obtain ⟨hplain, hslash⟩ := plain_of_pairSign? hsign
    rw [cut_of_plain lineStart _ hplain fun h => absurd h hslash]
    simp [signFrom, hsign]
  | single hsign hpair hcomment =>
    cases htext
    rw [cut_of_plain lineStart _ (plain_of_singleSign? hsign) (by simpa using hcomment)]
    simp [signFrom, hpair.bind, hsign]
  | stray hodd hpair =>
    cases htext
    rw [cut_of_plain lineStart _ hodd.toPlain ?_]
    · simp [signFrom, hpair.bind, hodd.sign]
    · rintro rfl
      cases hodd.sign

/-! ## Tilings -/

theorem Fits.text_ne_nil {p : Piece} {after : List Char} (h : Fits before p after) : p.text ≠ [] := by
  cases h <;> nofun

theorem pairSign?_lineFeed (c : Char) : pairSign? c '\n' = none := by
  unfold pairSign?
  split <;> first | rfl | contradiction

/-- Line feeds stand for themselves or in strings. -/
theorem Fits.lineFeed_mem {p : Piece} {after : List Char} (h : Fits before p after) (hmem : '\n' ∈ p.text) :
    p.form = .lineBreak ∨ p.form = .string ∨ p.form = .openString := by
  have hdigit : isDigit '\n' = false := by decide
  cases h with
  | lineBreak => exact Or.inl rfl
  | string => exact Or.inr (Or.inl rfl)
  | openString => exact Or.inr (Or.inr rfl)
  | indentation _ hrun _ => cases hrun _ hmem
  | gap _ hrun _ => cases hrun _ hmem
  | comment hrun _ =>
    rw [List.mem_cons, List.mem_cons] at hmem
    rcases hmem with hmem | hmem | hmem
    · cases hmem
    · cases hmem
    · exact absurd rfl (hrun _ hmem)
  | whole hrun _ _ => cases hdigit.symm.trans (hrun _ hmem)
  | fraction hwhole hrun _ =>
    rcases List.mem_append.1 hmem with hmem | hmem
    · cases hdigit.symm.trans (hwhole _ hmem)
    · rcases List.mem_cons.1 hmem with hmem | hmem
      · cases hmem
      · cases hdigit.symm.trans (hrun _ hmem)
  | word hfirst hrun _ =>
    rcases List.mem_cons.1 hmem with rfl | hmem
    · cases hfirst
    · cases hrun _ hmem
  | pair hsign =>
    rw [List.mem_cons, List.mem_singleton] at hmem
    rcases hmem with rfl | rfl
    · exact absurd rfl (plain_of_pairSign? hsign).1.lineFeed
    · rw [pairSign?_lineFeed] at hsign
      cases hsign
  | single hsign _ _ => exact absurd (List.mem_singleton.1 hmem).symm (plain_of_singleSign? hsign).lineFeed
  | stray hodd _ => exact absurd (List.mem_singleton.1 hmem).symm hodd.lineFeed

/-- A line starts behind a line break, and behind no other piece. -/
theorem Fits.atLineStart_iff {p : Piece} {after : List Char} (h : Fits before p after) (hafter : after ≠ []) :
    (p.form == .lineBreak) = true ↔ AtLineStart (before ++ p.text) := by
  rw [beq_iff_eq]
  constructor
  · intro hform
    cases h with
    | lineBreak => exact Or.inr (by simp)
    | _ => cases hform
  · intro hline
    have hlast : p.text.getLast? = some '\n' := by
      rcases hline with hnil | hlast
      · exact absurd (List.append_eq_nil_iff.1 hnil).2 h.text_ne_nil
      · cases htext : p.text.getLast? with
        | none => exact absurd (List.getLast?_eq_none_iff.1 htext) h.text_ne_nil
        | some c => rwa [List.getLast?_append, htext, Option.some_or] at hlast
    rcases h.lineFeed_mem (List.mem_of_getLast? hlast) with hform | hform | hform
    · exact hform
    · cases h with
      | string =>
        rw [← List.cons_append, List.getLast?_concat] at hlast
        cases hlast
      | _ => cases hform
    · cases h with
      | openString => exact absurd rfl hafter
      | _ => cases hform

theorem tiles_splitFrom {fuel : Nat} {lineStart : Bool} {before cs : List Char} (hfuel : cs.length ≤ fuel)
    (hstart : cs ≠ [] → (lineStart = true ↔ AtLineStart before)) : Tiles before (splitFrom fuel lineStart cs) := by
  induction fuel generalizing lineStart before cs with
  | zero => exact True.intro
  | succ fuel ih =>
    cases cs with
    | nil => exact True.intro
    | cons c cs =>
      have hfits := fits_cut (hstart nofun) c cs
      have hrest : (cut lineStart c cs).2.length ≤ fuel :=
        Nat.le_trans (length_cut_rest_le lineStart c cs) (Nat.le_of_succ_le_succ hfuel)
      simp only [splitFrom, Tiles]
      rw [flatMap_text_splitFrom _ hrest]
      exact ⟨hfits, ih hrest hfits.atLineStart_iff⟩

theorem eq_splitFrom_of_tiles {ps : List Piece} {fuel : Nat} {lineStart : Bool} {before cs : List Char}
    (h : Tiles before ps) (hcs : ps.flatMap text = cs) (hfuel : cs.length ≤ fuel)
    (hstart : cs ≠ [] → (lineStart = true ↔ AtLineStart before)) : ps = splitFrom fuel lineStart cs := by
  induction ps generalizing fuel lineStart before cs with
  | nil =>
    subst hcs
    cases fuel <;> rfl
  | cons p ps ih =>
    obtain ⟨hfits, htiles⟩ := h
    rw [List.flatMap_cons] at hcs
    cases cs with
    | nil => exact absurd (List.append_eq_nil_iff.1 hcs).1 hfits.text_ne_nil
    | cons c cs =>
      have hcut := cut_of_fits (hstart nofun) hfits hcs
      have hrest := length_cut_rest_le lineStart c cs
      rw [hcut] at hrest
      cases fuel with
      | zero => cases hfuel
      | succ fuel =>
        simp only [splitFrom, hcut]
        rw [← ih htiles rfl (Nat.le_trans hrest (Nat.le_of_succ_le_succ hfuel)) hfits.atLineStart_iff]

/-- **Tilings.**  The pieces of a text are the ones that fit together from its start to its end, and there are no
others. -/
theorem tiles_iff (cs : List Char) (ps : List Piece) : Tiles [] ps ∧ ps.flatMap text = cs ↔ ps = split cs := by
  have hstart : cs ≠ [] → (true = true ↔ AtLineStart []) := fun _ => ⟨fun _ => Or.inl rfl, fun _ => rfl⟩
  constructor
  · rintro ⟨htiles, htext⟩
    exact eq_splitFrom_of_tiles htiles htext (Nat.le_refl _) hstart
  · rintro rfl
    exact ⟨tiles_splitFrom (Nat.le_refl _) hstart, flatMap_text_split cs⟩

end Offside.Token.Piece
