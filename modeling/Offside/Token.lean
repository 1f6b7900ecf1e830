import Offside.Literal

/-!
# Tokens

The words and signs of a program.  Line structure is kept: every leading space or tab of a line is a token
of its own, so that the reader of blocks can measure indentation.  The end of the text is not a token of a
`Stream` but its closing line; `Stream.toList` shows it as a last token of kind `eof`.
-/

set_option autoImplicit false

namespace Offside

/-- Kinds of tokens. -/
inductive Token.Kind where
  | space | tab
  | leftParen | rightParen | comma | dot | minus | plus | slash | star
  | bang | bangEqual | equalEqual | greater | greaterEqual | less | lessEqual | colon | doubleColon
  | identifier | string | number
  | andWord | classWord | elseWord | falseWord | forWord | functionWord | ifWord | nullWord | orWord
  | printWord | returnWord | superWord | thisWord | toWord | trueWord | setWord | whileWord
  | eof
  deriving DecidableEq, Repr, Inhabited

namespace Token.Kind

/-- Every kind. -/
def all : List Kind :=
  [space, tab, leftParen, rightParen, comma, dot, minus, plus, slash, star, bang, bangEqual, equalEqual,
   greater, greaterEqual, less, lessEqual, colon, doubleColon, identifier, string, number, andWord,
   classWord, elseWord, falseWord, forWord, functionWord, ifWord, nullWord, orWord, printWord, returnWord,
   superWord, thisWord, toWord, trueWord, setWord, whileWord, eof]

/-- The name of a kind in listings. -/
def label : Kind → String
  | space => "space"
  | tab => "tab"
  | leftParen => "left_paren"
  | rightParen => "right_paren"
  | comma => "comma"
  | dot => "dot"
  | minus => "minus"
  | plus => "plus"
  | slash => "slash"
  | star => "star"
  | bang => "bang"
  | bangEqual => "bang_equal"
  | equalEqual => "equal_equal"
  | greater => "greater"
  | greaterEqual => "greater_equal"
  | less => "less"
  | lessEqual => "less_equal"
  | colon => "colon"
  | doubleColon => "double_colon"
  | identifier => "identifier"
  | string => "string"
  | number => "number"
  | andWord => "and"
  | classWord => "class"
  | elseWord => "else"
  | falseWord => "false"
  | forWord => "for"
  | functionWord => "function"
  | ifWord => "if"
  | nullWord => "null"
  | orWord => "or"
  | printWord => "print"
  | returnWord => "return"
  | superWord => "super"
  | thisWord => "this"
  | toWord => "to"
  | trueWord => "true"
  | setWord => "set"
  | whileWord => "while"
  | eof => "eof"

/-- The kind with a given name. -/
def ofLabel? (s : String) : Option Kind :=
  all.find? fun k => k.label == s

/-- Reserved words; each is spelt like the name of its kind. -/
def reserved : List Kind :=
  [andWord, classWord, elseWord, falseWord, forWord, functionWord, ifWord, nullWord, orWord, printWord,
   returnWord, superWord, thisWord, toWord, trueWord, setWord, whileWord]

/-- The kind of a word: reserved, or else an identifier. -/
def ofWord (word : String) : Kind :=
  (reserved.find? fun k => k.label == word).getD identifier

/-- Leading blanks of a line. -/
def isIndentation : Kind → Bool
  | space | tab => true
  | _ => false

/-- Words that may begin a statement; reading resumes at these after an error. -/
def startsStatement : Kind → Bool
  | classWord | functionWord | setWord | forWord | ifWord | whileWord | printWord | returnWord => true
  | _ => false

theorem ofLabel?_label (k : Kind) : ofLabel? k.label = some k := by
  cases k <;> decide +kernel

end Token.Kind

/-- A token: its kind, its text, the value it denotes (strings and numbers only) and the line on which it
starts. -/
structure Token where
  kind : Token.Kind
  lexeme : String
  literal : Literal
  line : Int
  deriving Repr, Inhabited

namespace Token

/-- The mark of the end of the text. -/
def atEnd (line : Int) : Token :=
  ⟨.eof, "", .null, line⟩

/-- A leading blank of a line. -/
def isIndentation (t : Token) : Bool :=
  t.kind.isIndentation

/-- A token in a listing. -/
def listing (t : Token) : String :=
  "Token(" ++ t.kind.label ++ ", " ++ Text.quoted t.lexeme ++ ", " ++ t.literal.listing ++ ", line=" ++
    toString t.line ++ ")"

/-- The tokens of a text and the line on which the text ends. -/
structure Stream where
  tokens : List Token
  endLine : Int
  deriving Repr, Inhabited

/-- The tokens with the end mark behind them. -/
def Stream.toList (s : Stream) : List Token :=
  s.tokens ++ [atEnd s.endLine]

/-- A listing of all tokens with the end mark. -/
def Stream.listing (s : Stream) : String :=
  "[" ++ ", ".intercalate (s.toList.map Token.listing) ++ "]"

end Token
end Offside
