import Offside.Decimal.Reading
import Offside.Report
import Offside.Token.Piece

/-!
# From text to tokens

Each piece of a text stands on a line, gives rise to tokens and possibly to a report.  The tokens of a text
are those of its pieces, in order, and so are its reports; reading never stops at a problem.
-/

set_option autoImplicit false

namespace Offside.Token

/-- Pieces with the line on which each starts, the first one starting on `line`. -/
def placed : Int → List Piece → List (Int × Piece)
  | _, [] => []
  | line, p :: ps => (line, p) :: placed (line + Int.ofNat p.breaks) ps

/-- The value of the string between its quotes: a backslash in front of a quote is dropped. -/
def unescape : List Char → List Char
  | [] => []
  | '\\' :: '"' :: cs => '"' :: unescape cs
  | c :: cs => c :: unescape cs

/-- The text between the quotes of a string. -/
def stringValue (lexeme : List Char) : List Char :=
  unescape lexeme.tail.dropLast

/-- The token of one leading blank. -/
def ofBlank (line : Int) (c : Char) : Token :=
  ⟨if c = ' ' then .space else .tab, String.singleton c, .null, line⟩

/-- The tokens of a piece that starts on `line`. -/
def ofPiece (line : Int) (p : Piece) : List Token :=
  match p.form with
  | .indentation => p.text.map (ofBlank line)
  | .number => [⟨.number, String.ofList p.text, .number (Decimal.ofLiteral p.text), line⟩]
  | .string => [⟨.string, String.ofList p.text, .text (String.ofList (stringValue p.text)), line⟩]
  | .word => [⟨.ofWord (String.ofList p.text), String.ofList p.text, .null, line⟩]
  | .sign kind => [⟨kind, String.ofList p.text, .null, line⟩]
  | .lineBreak | .gap | .comment | .openString | .stray => []

/-- The problems of a piece that starts on `line`.  A string that is never closed is reported on the last
line; the null character is passed over. -/
def problemsOf (line : Int) (p : Piece) : List Report :=
  match p.form with
  | .stray =>
    (p.text.filter (· != '\x00')).map fun c => Report.onLine (some line) (.unexpectedCharacter c)
  | .openString => [Report.onLine (some (line + Int.ofNat p.breaks)) .unterminatedString]
  | _ => []

/-- What reading a text yields. -/
structure Scan where
  stream : Stream
  reports : List Report
  deriving Repr

/-- Reads the tokens of a text. -/
def scan (source : String) : Scan :=
  let cs := source.toList
  let pieces := placed 1 (Piece.split cs)
  { stream :=
      { tokens := pieces.flatMap fun p => ofPiece p.1 p.2
        endLine := 1 + Int.ofNat (cs.count '\n') }
    reports := pieces.flatMap fun p => problemsOf p.1 p.2 }

end Offside.Token
