import Offside.Report

/-!
# The off-side rule

The lines of a block are indented alike, one step deeper than the line that opens the block: by one tab, or
by one, two or four spaces.  One indentation character is used throughout an outermost block.

The character of an indentation is read off the text of its tokens, not off their kind, so any text may be one.

* `lineRun` — the indentation in front of the next real token, blank lines passed over;
* `Layout` — the blocks that are open, with `Layout.level?` telling to which of them a line belongs and
  `Layout.enter?` opening another;
* `resume` — where reading goes on after an error.
-/

set_option autoImplicit false

namespace Offside

/-! ## Indentation of a line -/

/-- Collects the indentation `run` read so far.  A run that a token of another line or the end follows
belongs to a blank line and is dropped. -/
def lineRunFrom (run : List Token) : List Token → List Token × List Token
  | [] => ([], [])
  | t :: ts =>
    let sameLine := run.head?.all fun r => r.line == t.line
    if t.isIndentation then
      if sameLine then lineRunFrom (t :: run) ts else lineRunFrom [t] ts
    else
      (if sameLine then run else [], t :: ts)

/-- The indentation in front of the next real token, and the tokens from that token on. -/
def lineRun (tokens : List Token) : List Token × List Token :=
  lineRunFrom [] tokens

/-- An indentation of more than one character. -/
def isMixed (run : List Token) : Bool :=
  match run with
  | [] => false
  | t :: ts => ts.any fun u => u.lexeme != t.lexeme

/-! ## Open blocks -/

/-- The open blocks: their indentation character, if there are any, and their widths, innermost first. -/
structure Layout where
  blank : Option String
  widths : List Nat
  deriving DecidableEq, Repr, Inhabited

namespace Layout

/-- No block is open. -/
def top : Layout := ⟨none, []⟩

/-- The number of open blocks. -/
def depth (l : Layout) : Nat :=
  l.widths.length

/-- The width of the innermost block. -/
def width (l : Layout) : Nat :=
  l.widths.headD 0

/-- The level of the block to which a line with the given indentation belongs, if there is one. -/
def level? (l : Layout) (run : List Token) : Option Nat :=
  if run.isEmpty then some 0
  else if run.all fun t => some t.lexeme == l.blank then
    match l.widths.dropWhile (· != run.length) with
    | [] => none
    | w :: ws => some (w :: ws).length
  else none

/-- A line of the innermost block. -/
def continues (l : Layout) (run : List Token) : Bool :=
  l.level? run == some l.depth

/-- A line of a block further out. -/
def closes (l : Layout) (run : List Token) : Bool :=
  match l.level? run with
  | some level => decide (level < l.depth)
  | none => false

/-- The steps by which a block may be indented with the given character. -/
def steps (blank : String) : List Nat :=
  if blank = "\t" then [1] else [1, 2, 4]

/-- Opens a block whose first line has the given indentation. -/
def enter? (l : Layout) (run : List Token) : Except Problem Layout :=
  match run with
  | [] => .error (.expected "indented block after ':'")
  | t :: _ =>
    if run.length ≤ l.width then .error (.expected "indented block after ':'")
    else if isMixed run || (l.depth != 0 && l.blank != some t.lexeme) then .error .mixedIndentation
    else if (steps t.lexeme).contains (run.length - l.width) then
      .ok ⟨some t.lexeme, run.length :: l.widths⟩
    else .error (.indentationUnit (run.length - l.width))

/-- Why a line with the given indentation is not a line of the innermost block. -/
def misfit (l : Layout) (run : List Token) : Problem :=
  if isMixed run then .mixedIndentation else .indentation l.width run.length

end Layout

/-! ## Going on after an error -/

/-- A line that begins a statement, or the end. -/
def opensStatement : List Token → Bool
  | [] => true
  | t :: _ => t.kind.startsStatement

/-- Skips to the start of the next line that begins a statement.  `last` is the line of the token in front;
the result is the line of the last token skipped and the tokens that are left. -/
def resume : Int → List Token → Int × List Token
  | last, [] => (last, [])
  | last, t :: ts =>
    if t.isIndentation then
      if opensStatement (lineRun (t :: ts)).2 then (last, t :: ts) else resume t.line ts
    else if t.kind.startsStatement && decide (last < t.line) then (last, t :: ts)
    else resume t.line ts

end Offside
