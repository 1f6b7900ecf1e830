import Offside.Layout
import Offside.Syntax

/-!
# Reading tokens

The cursor holds the tokens that are left and what reading them depends on.  A reading step yields a value
or is abandoned after its problem has been reported; in both cases the cursor goes on from where the step
left it.

Between parentheses line breaks carry no meaning, so `Cursor.consume` steps over indentation there.
-/

set_option autoImplicit false

namespace Offside

open Token (Kind)

/-- The state of reading. -/
structure Cursor where
  rest : List Token
  endLine : Int
  /-- The line of the token consumed last. -/
  lastLine : Int
  /-- The number of open parentheses. -/
  parens : Nat
  layout : Layout
  /-- The number of parameters and arguments allowed. -/
  argumentLimit : Nat
  reports : List Report
  deriving Repr

namespace Cursor

/-- The cursor in front of a text. -/
def start (argumentLimit : Nat) (stream : Token.Stream) : Cursor :=
  { rest := stream.tokens
    endLine := stream.endLine
    lastLine := 0
    parens := 0
    layout := .top
    argumentLimit := argumentLimit
    reports := [] }

/-- The first of some tokens, or the end mark. -/
def firstOf (s : Cursor) (tokens : List Token) : Token :=
  tokens.headD (.atEnd s.endLine)

/-- The token under the cursor. -/
def current (s : Cursor) : Token :=
  s.firstOf s.rest

/-- Reports a problem at a token. -/
def complain (s : Cursor) (t : Token) (problem : Problem) : Cursor :=
  { s with reports := s.reports ++ [Report.atToken t problem] }

/-- Open parentheses behind a token. -/
def parensAfter (n : Nat) : Kind → Nat
  | .leftParen => n + 1
  | .rightParen => n - 1
  | _ => n

/-- Moves behind the token `t`, which `rest` follows. -/
def consume (s : Cursor) (t : Token) (rest : List Token) : Cursor :=
  let parens := parensAfter s.parens t.kind
  { s with
    rest := if parens = 0 then rest else rest.dropWhile Token.isIndentation
    lastLine := t.line
    parens := parens }

/-- Skips to the next line that begins a statement, past at least one token. -/
def recover (s : Cursor) : Cursor :=
  match s.rest with
  | [] => { s with parens := 0 }
  | t :: ts =>
    let r := resume t.line ts
    { s with parens := 0, lastLine := r.1, rest := r.2 }

end Cursor

/-- The statement being read is given up; the reason has been reported. -/
structure Abandoned where
  deriving Repr

/-- A step of reading. -/
abbrev Reading := EStateM Abandoned Cursor

namespace Reading

/-- Reports a problem at a token and gives up. -/
def abandonAt {α : Type} (t : Token) (problem : Problem) : Reading α :=
  fun s => .error ⟨⟩ (s.complain t problem)

/-- Reports a problem at the token under the cursor and gives up. -/
def abandon {α : Type} (problem : Problem) : Reading α :=
  fun s => .error ⟨⟩ (s.complain s.current problem)

/-- Whether the token under the cursor satisfies `p`; at the end it does not. -/
def check (p : Kind → Bool) : Reading Bool :=
  fun s => .ok (match s.rest with | [] => false | t :: _ => p t.kind) s

/-- Consumes the token under the cursor if its kind satisfies `p`. -/
def accept? (p : Kind → Bool) : Reading (Option Token) :=
  fun s =>
    match s.rest with
    | [] => .ok none s
    | t :: ts => if p t.kind then .ok (some t) (s.consume t ts) else .ok none s

/-- Consumes a token of the given kind, or gives up. -/
def expect (kind : Kind) (what : String) : Reading Token := do
  match ← accept? (· == kind) with
  | some t => return t
  | none => abandon (.expected what)

/-- Reports that a list already holds as many entries as are allowed; reading goes on. -/
def limitCount (count : Nat) (what : String) : Reading Unit :=
  fun s =>
    if s.argumentLimit ≤ count then .ok () (s.complain s.current (.tooMany s.argumentLimit what))
    else .ok () s

/-- Puts `fallback` in place of a statement that was given up and skips to the next one. -/
def recovering {α : Type} (body : Reading α) (fallback : α) : Reading α :=
  fun s =>
    match body s with
    | .ok a t => .ok a t
    | .error _ t => .ok fallback t.recover

end Reading
end Offside
