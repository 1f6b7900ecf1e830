import Offside.Text.Digit
import Offside.Token

/-!
# Pieces of a text

A program text is cut into pieces from left to right; each piece is the longest that its first character
allows.  Cutting loses nothing: the pieces put together are the text again.

* `Piece.cut` — the first piece of a text and the rest;
* `Piece.split` — all pieces of a text;
* `Piece.cut_append`, `Piece.flatMap_text_split` — nothing is lost.
-/

set_option autoImplicit false

namespace Offside.Token

/-- What a piece of text is. -/
inductive Piece.Form where
  | lineBreak
  | indentation
  | gap
  | comment
  | number
  | string
  | openString
  | word
  | sign (kind : Kind)
  | stray
  deriving DecidableEq, Repr

/-- A piece of a text. -/
structure Piece where
  form : Piece.Form
  text : List Char
  deriving DecidableEq, Repr

namespace Piece

/-- Blanks that count as indentation at the start of a line. -/
def isIndent (c : Char) : Bool :=
  c == ' ' || c == '\t'

/-- Blanks between tokens. -/
def isGap (c : Char) : Bool :=
  c == ' ' || c == '\t' || c == '\r'

/-- First characters of words. -/
def startsWord (c : Char) : Bool :=
  c.isAlpha || c == '_'

/-- Characters inside words. -/
def inWord (c : Char) : Bool :=
  c.isAlphanum || c == '_'

/-- Signs of two characters. -/
def pairSign? (first second : Char) : Option Kind :=
  match first, second with
  | '!', '=' => some .bangEqual
  | '=', '=' => some .equalEqual
  | '<', '=' => some .lessEqual
  | '>', '=' => some .greaterEqual
  | ':', ':' => some .doubleColon
  | _, _ => none

/-- Signs of one character. -/
def singleSign? (c : Char) : Option Kind :=
  match c with
  | '(' => some .leftParen
  | ')' => some .rightParen
  | ',' => some .comma
  | '.' => some .dot
  | '-' => some .minus
  | '+' => some .plus
  | '*' => some .star
  | '/' => some .slash
  | '!' => some .bang
  | '<' => some .less
  | '>' => some .greater
  | ':' => some .colon
  | _ => none

/-- A first character and the run of characters behind it that satisfy `p`. -/
def run (form : Form) (p : Char → Bool) (c : Char) (cs : List Char) : Piece × List Char :=
  (⟨form, c :: cs.takeWhile p⟩, cs.dropWhile p)

/-- Splits behind the quote that ends a string; a quote right behind a backslash does not end it.  The
result is `none` if the string is still open at the end of the text. -/
def closeString : List Char → Option (List Char × List Char)
  | [] => none
  | '\\' :: '"' :: cs => (closeString cs).map fun r => ('\\' :: '"' :: r.1, r.2)
  | '"' :: cs => some (['"'], cs)
  | c :: cs => (closeString cs).map fun r => (c :: r.1, r.2)

/-- The string that starts with the quote `c`; an open one takes the rest of the text. -/
def stringFrom (c : Char) (cs : List Char) : Piece × List Char :=
  match closeString cs with
  | some r => (⟨.string, c :: r.1⟩, r.2)
  | none => (⟨.openString, c :: cs⟩, [])

/-- The fraction of a number: a point and at least one digit. -/
def fraction : List Char → List Char × List Char
  | '.' :: d :: cs =>
    if Text.isDigit d then ('.' :: d :: cs.takeWhile Text.isDigit, cs.dropWhile Text.isDigit)
    else ([], '.' :: d :: cs)
  | cs => ([], cs)

/-- The number that starts with the digit `c`. -/
def numberFrom (c : Char) (cs : List Char) : Piece × List Char :=
  let f := fraction (cs.dropWhile Text.isDigit)
  (⟨.number, c :: cs.takeWhile Text.isDigit ++ f.1⟩, f.2)

/-- The sign that starts with `c`, the longer one if two fit, or a character that fits nothing. -/
def signFrom (c : Char) (cs : List Char) : Piece × List Char :=
  match cs.head?.bind (pairSign? c) with
  | some kind => (⟨.sign kind, c :: cs.take 1⟩, cs.drop 1)
  | none =>
    match singleSign? c with
    | some kind => (⟨.sign kind, [c]⟩, cs)
    | none => (⟨.stray, [c]⟩, cs)

/-- The first piece of the text `c :: cs` and the rest; `lineStart` says whether the text stands at the
start of a line. -/
def cut (lineStart : Bool) (c : Char) (cs : List Char) : Piece × List Char :=
  if c = '\n' then (⟨.lineBreak, [c]⟩, cs)
  else if lineStart && isIndent c then run .indentation isIndent c cs
  else if isGap c then run .gap isGap c cs
  else if c == '/' && cs.head? == some '/' then run .comment (· != '\n') c cs
  else if Text.isDigit c then numberFrom c cs
  else if c == '"' then stringFrom c cs
  else if startsWord c then run .word inWord c cs
  else signFrom c cs

/-- The pieces of a text of at most `fuel` characters. -/
def splitFrom : Nat → Bool → List Char → List Piece
  | 0, _, _ => []
  | _ + 1, _, [] => []
  | fuel + 1, lineStart, c :: cs =>
    let r := cut lineStart c cs
    r.1 :: splitFrom fuel (r.1.form == .lineBreak) r.2

/-- The pieces of a text, in order. -/
def split (cs : List Char) : List Piece :=
  splitFrom cs.length true cs

/-- Line feeds in a piece. -/
def breaks (p : Piece) : Nat :=
  p.text.count '\n'

/-! ## Nothing is lost -/

theorem closeString_append {cs : List Char} {r : List Char × List Char} (h : closeString cs = some r) :
    r.1 ++ r.2 = cs := by
  fun_induction closeString cs generalizing r with
  | case1 => simp at h
  | case2 cs ih => obtain ⟨s, hs, rfl⟩ := Option.map_eq_some_iff.1 h; simp [ih hs]
  | case3 cs => simp only [Option.some.injEq] at h; subst h; rfl
  | case4 c cs _ _ ih => obtain ⟨s, hs, rfl⟩ := Option.map_eq_some_iff.1 h; simp [ih hs]

theorem fraction_append (cs : List Char) : (fraction cs).1 ++ (fraction cs).2 = cs := by
  unfold fraction
  split
  · split <;> simp
  · rfl

theorem run_append (form : Form) (p : Char → Bool) (c : Char) (cs : List Char) :
    (run form p c cs).1.text ++ (run form p c cs).2 = c :: cs := by
  simp [run]

theorem numberFrom_append (c : Char) (cs : List Char) :
    (numberFrom c cs).1.text ++ (numberFrom c cs).2 = c :: cs := by
  simp [numberFrom, fraction_append]

theorem stringFrom_append (c : Char) (cs : List Char) :
    (stringFrom c cs).1.text ++ (stringFrom c cs).2 = c :: cs := by
  unfold stringFrom
  split
  · next h => simp [closeString_append h]
  · simp

theorem signFrom_append (c : Char) (cs : List Char) :
    (signFrom c cs).1.text ++ (signFrom c cs).2 = c :: cs := by
  unfold signFrom
  split
  · exact congrArg (c :: ·) (List.take_append_drop 1 cs)
  · split <;> rfl

/-- A piece and the rest make up the text. -/
theorem cut_append (lineStart : Bool) (c : Char) (cs : List Char) :
    (cut lineStart c cs).1.text ++ (cut lineStart c cs).2 = c :: cs := by
  unfold cut
  split
  · rfl
  split
  · exact run_append ..
  split
  · exact run_append ..
  split
  · exact run_append ..
  split
  · exact numberFrom_append ..
  split
  · exact stringFrom_append ..
  split
  · exact run_append ..
  · exact signFrom_append ..

/-- A piece begins with the first character of the text. -/
theorem head?_cut_text (lineStart : Bool) (c : Char) (cs : List Char) :
    (cut lineStart c cs).1.text.head? = some c := by
  unfold cut run numberFrom stringFrom signFrom
  repeat' split
  all_goals rfl

theorem length_cut_rest_le (lineStart : Bool) (c : Char) (cs : List Char) :
    (cut lineStart c cs).2.length ≤ cs.length := by
  have happ := congrArg List.length (cut_append lineStart c cs)
  have hhead := head?_cut_text lineStart c cs
  cases htext : (cut lineStart c cs).1.text with
  | nil => simp [htext] at hhead
  | cons d ds => simp [htext] at happ; omega

theorem flatMap_text_splitFrom {fuel : Nat} {cs : List Char} (lineStart : Bool)
    (h : cs.length ≤ fuel) : (splitFrom fuel lineStart cs).flatMap Piece.text = cs := by
  induction fuel generalizing cs lineStart with
  | zero => simp [splitFrom, List.length_eq_zero_iff.1 (Nat.le_zero.1 h)]
  | succ fuel ih =>
    cases cs with
    | nil => rfl
    | cons c cs =>
      have hrest := length_cut_rest_le lineStart c cs
      simp only [List.length_cons] at h
      simp only [splitFrom, List.flatMap_cons]
      rw [ih _ (by omega), cut_append]

/-- The pieces of a text, put together, are the text. -/
theorem flatMap_text_split (cs : List Char) : (split cs).flatMap Piece.text = cs :=
  flatMap_text_splitFrom true (Nat.le_refl _)

end Piece
end Offside.Token
