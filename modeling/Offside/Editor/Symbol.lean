import Offside.Editor.Position
import Offside.Session

/-!
# Symbols of documents

The classes, functions and variables that a document declares at its top level, and the methods of its
classes, each with its line (from zero) and a one-line description.  Reports become marks in the document.
-/

set_option autoImplicit false

namespace Offside.Editor

/-- What a symbol names. -/
inductive Symbol.Kind where
  | classSymbol
  | initializer
  | method
  | function
  | variableSymbol
  deriving DecidableEq, Repr

/-- The name of a kind of symbol. -/
def Symbol.Kind.label : Symbol.Kind → String
  | classSymbol => "Class"
  | initializer => "Constructor"
  | method => "Method"
  | function => "Function"
  | variableSymbol => "Variable"

/-- A declared name. -/
structure Symbol where
  name : String
  kind : Symbol.Kind
  uri : String
  line : Int
  detail : String
  deriving DecidableEq, Repr

/-- The line of a symbol, as far as its name is long. -/
def Symbol.range (s : Symbol) : Range :=
  ⟨s.line, 0, s.line, s.name.length⟩

/-- A symbol of the top level with its methods, if it is a class. -/
structure Outline where
  symbol : Symbol
  methods : List Symbol
  deriving DecidableEq, Repr

/-- The header of a function: its name, its parameters and its return type. -/
def signature (r : Routine Unit) : String :=
  "function " ++ r.name.lexeme ++ "(" ++ ", ".intercalate (r.params.map Token.lexeme) ++ ")" ++
    match r.returnType with
    | some t => " :: " ++ t.lexeme
    | none => ""

/-- The symbol that a token names; lines are counted from zero. -/
def symbolAt (uri : String) (kind : Symbol.Kind) (t : Token) (detail : String) : Symbol :=
  ⟨t.lexeme, kind, uri, t.line - 1, detail⟩

/-- The symbol of a method. -/
def methodSymbol (uri : String) (r : Routine Unit) : Symbol :=
  symbolAt uri (if r.isInitializer then .initializer else .method) r.name (signature r)

/-- The description of a class. -/
def classDetail (name : Token) (superclass : Option (Token × Unit)) : String :=
  "class " ++ name.lexeme ++
    match superclass with
    | some (t, _) => " :: " ++ t.lexeme
    | none => ""

/-- The symbols of statements; a variable counts where it is set first, `seen` being those set before. -/
def outlinesFrom (uri : String) (seen : List String) : List (Stmt Unit) → List Outline
  | [] => []
  | .classDef name superclass methods :: more =>
    ⟨symbolAt uri .classSymbol name (classDetail name superclass), methods.map (methodSymbol uri)⟩ ::
      outlinesFrom uri seen more
  | .define r :: more => ⟨symbolAt uri .function r.name (signature r), []⟩ :: outlinesFrom uri seen more
  | .assign name _ _ :: more =>
    if seen.contains name.lexeme then outlinesFrom uri seen more
    else
      ⟨symbolAt uri .variableSymbol name ("set " ++ name.lexeme), []⟩ ::
        outlinesFrom uri (name.lexeme :: seen) more
  | _ :: more => outlinesFrom uri seen more

/-- The symbols that a document declares. -/
def outlines (uri : String) (statements : List (Stmt Unit)) : List Outline :=
  outlinesFrom uri [] statements

/-! ## Marks -/

/-- A problem shown in a document. -/
structure Mark where
  line : Int
  message : String
  deriving DecidableEq, Repr

/-- A mark covers its line. -/
def Mark.range (m : Mark) : Range :=
  ⟨m.line, 0, m.line + 1, 0⟩

/-- The line of a mark, from zero; a missing line and the lines in front of the first become the first. -/
def markLine : Option Int → Int
  | none => 0
  | some line => max (line - 1) 0

/-- The mark of a report; a problem of a run is not shown in the document. -/
def Mark.ofReport? (r : Report) : Option Mark :=
  match r.stage with
  | .runtime => none
  | .compile =>
    let message := match r.place with
      | .somewhere => r.message
      | place => "Error" ++ place.text ++ ": " ++ r.message
    some ⟨markLine r.line, message⟩

/-- The marks of a log. -/
def marks (log : Log) : List Mark :=
  log.filterMap Mark.ofReport?

end Offside.Editor
