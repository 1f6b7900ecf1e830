import Offside.Text.Lines
import Offside.Token.Piece

/-!
# Positions in documents

Editors give a position as a line and a number of UTF-16 units from the start of that line, both from zero.
The word at a position is the run of word characters that ends there together with the run that starts
there.
-/

set_option autoImplicit false

namespace Offside.Editor

/-- A place between two characters. -/
structure Position where
  line : Nat
  character : Nat
  deriving DecidableEq, Repr

/-- A stretch of a document. -/
structure Range where
  startLine : Int
  startCharacter : Nat
  endLine : Int
  endCharacter : Nat
  deriving DecidableEq, Repr

/-- The UTF-16 units of a character. -/
def units (c : Char) : Nat :=
  if c.toNat < 0x10000 then 1 else 2

/-- The UTF-16 units of a text. -/
def unitLength (cs : List Char) : Nat :=
  cs.foldr (fun c n => units c + n) 0

/-- Splits a line in front of the first character that starts at or behind `n` units. -/
def splitUnits : Nat → List Char → List Char × List Char
  | 0, cs => ([], cs)
  | _ + 1, [] => ([], [])
  | n + 1, c :: cs =>
    let r := splitUnits (n + 1 - units c) cs
    (c :: r.1, r.2)

/-- A number of units inside a line: beyond its end it becomes the last one. -/
def clampUnits (line : List Char) (n : Nat) : Nat :=
  if unitLength line < n then unitLength line - 1 else n

/-- The run of word characters at the end of a text, not counting a final line feed. -/
def wordBefore (cs : List Char) : List Char :=
  let trimmed := match cs.reverse with
    | '\n' :: more => more
    | all => all
  (trimmed.takeWhile Token.Piece.inWord).reverse

/-- The run of word characters at the start of a text. -/
def wordAfter (cs : List Char) : List Char :=
  cs.takeWhile Token.Piece.inWord

/-- A line as positions count it: a carriage return and a line feed at its end count as one character. -/
def counted (line : List Char) : List Char :=
  match line.reverse with
  | '\n' :: '\r' :: more => ('\n' :: more).reverse
  | _ => line

/-- The number of characters in front of a position in a line. -/
def columnOf (line : List Char) (character : Nat) : Nat :=
  let shown := counted line
  (splitUnits (clampUnits shown character) shown).1.length

/-- The word at a position; empty if there is none. -/
def wordAt (text : String) (p : Position) : String :=
  match (Text.splitLines text.toList)[p.line]? with
  | none => ""
  | some line =>
    let column := columnOf line p.character
    String.ofList (wordBefore (line.take column) ++ wordAfter (line.drop column))

theorem splitUnits_append (n : Nat) (cs : List Char) :
    (splitUnits n cs).1 ++ (splitUnits n cs).2 = cs := by
  fun_induction splitUnits n cs with
  | case1 cs => rfl
  | case2 n => rfl
  | case3 n c cs r ih => exact congrArg (c :: ·) ih

end Offside.Editor
