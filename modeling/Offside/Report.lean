import Offside.Problem
import Offside.Token

/-!
# Reports

Each phase of a run reports what it finds.  A report says in which part of the work the problem lies, on
which line and at which token.  A list of reports, in the order in which they were made, decides whether
the next phase may start and the exit status of a run.
-/

set_option autoImplicit false

namespace Offside

/-- The part of the work in which a problem was found: before the program runs, or while it runs. -/
inductive Report.Stage where
  | compile
  | runtime
  deriving DecidableEq, Repr, Inhabited

/-- Where on its line a problem lies. -/
inductive Report.Place where
  | somewhere
  | atEnd
  | atLexeme (lexeme : String)
  deriving DecidableEq, Repr, Inhabited

/-- How a place is shown behind the word for an error. -/
def Report.Place.text : Place → String
  | somewhere => ""
  | atEnd => " at end"
  | atLexeme lexeme => " at '" ++ lexeme ++ "'"

/-- A single problem, tied to a line when one is known. -/
structure Report where
  stage : Report.Stage
  line : Option Int
  place : Report.Place
  problem : Problem
  deriving DecidableEq, Repr, Inhabited

namespace Report

/-- A problem of the text of a line. -/
def onLine (line : Option Int) (problem : Problem) : Report :=
  ⟨.compile, line, .somewhere, problem⟩

/-- A problem at a token. -/
def atToken (t : Token) (problem : Problem) : Report :=
  ⟨.compile, some t.line, if t.kind = .eof then .atEnd else .atLexeme t.lexeme, problem⟩

/-- A problem that stopped a run. -/
def whileRunning (line : Option Int) (problem : Problem) : Report :=
  ⟨.runtime, line, .somewhere, problem⟩

/-- The wording of the problem. -/
def message (r : Report) : String :=
  r.problem.message

/-- The report as it is printed. -/
def text (r : Report) : String :=
  match r.stage, r.line with
  | .runtime, none => r.message
  | .runtime, some line => r.message ++ "\n[line " ++ toString line ++ "]"
  | .compile, line =>
    "[line " ++ (line.map toString).getD "None" ++ "] Error" ++ r.place.text ++ ": " ++ r.message

/-- A problem with its line, as an error that stops a run names itself. -/
def errorText (r : Report) : String :=
  match r.line with
  | none => r.message
  | some line => r.message ++ " on line " ++ toString line

/-- A problem found before the program runs. -/
def isCompile (r : Report) : Bool :=
  r.stage == .compile

/-- A problem that stopped a run. -/
def isRuntime (r : Report) : Bool :=
  r.stage == .runtime

end Report

/-- Reports in the order in which they were made. -/
abbrev Log := List Report

namespace Log

/-- Some problem keeps the program from running. -/
def hasCompileError (log : Log) : Bool :=
  log.any Report.isCompile

/-- Some run was stopped by an error. -/
def hasRuntimeError (log : Log) : Bool :=
  log.any Report.isRuntime

/-- The exit status: 65 for a program that cannot run, 70 for one that was stopped, 0 otherwise. -/
def exitStatus (log : Log) : Nat :=
  if log.hasCompileError then 65 else if log.hasRuntimeError then 70 else 0

theorem hasCompileError_append (a b : Log) :
    (a ++ b : Log).hasCompileError = (a.hasCompileError || b.hasCompileError) :=
  List.any_append

end Log
end Offside
