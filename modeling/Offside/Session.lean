import Offside.Machine.Evaluation
import Offside.Reader.Statement
import Offside.Syntax.Tree
import Offside.Token.Lexer

/-!
# Sessions

A session runs texts one after the other on one machine, keeping the global bindings and a log of reports.
A text goes through four phases; a problem found before the program runs keeps the next phase from
starting, and so does one left in the log from before.

* `Session.advance` — one phase;
* `Session.run` — all phases of a text;
* `Checked.ofSource` — the phases before a program runs, none of which stops the next, for editors.
-/

set_option autoImplicit false

namespace Offside

open Binding (Distance)

/-- A machine and what has been reported. -/
structure Session where
  machine : Machine
  log : Log

/-- The phases of a run. -/
inductive Phase where
  | scanned
  | parsed
  | resolved
  | interpreted
  deriving DecidableEq, Repr

/-- The name of a phase in a listing of times. -/
def Phase.label : Phase → String
  | scanned => "Scanned"
  | parsed => "Parsed"
  | resolved => "Resolved"
  | interpreted => "Interpreted"

/-- A line that tells how many milliseconds a phase took. -/
def Phase.timing (phase : Phase) (milliseconds : String) : String :=
  phase.label ++ " in " ++ milliseconds ++ "ms"

/-- What a run has reached: the input of the phase that comes next. -/
inductive Stage where
  | source (text : String)
  | tokens (stream : Token.Stream)
  | tree (stream : Token.Stream) (statements : List (Stmt Unit))
  | bound (statements : List (Stmt Distance))

/-- The phase that works on a stage. -/
def Stage.phase : Stage → Phase
  | source _ => .scanned
  | tokens _ => .parsed
  | tree _ _ => .resolved
  | bound _ => .interpreted

/-- A listing of the tokens and statements of a program. -/
def Program.listing (stream : Token.Stream) (statements : List (Stmt Unit)) : String :=
  "\nTokens:\n\n" ++ stream.listing ++ "\n\nAST:\n\n" ++
    String.join (statements.map fun s => s.tree ++ "\n") ++ " \n"

/-- The listing that is due before a stage, when listings are asked for. -/
def Stage.listing : Stage → String
  | tree stream statements => Program.listing stream statements
  | _ => ""

/-- How a run goes on behind a phase. -/
inductive Progress where
  | more (stage : Stage)
  | done
  | escaped (fault : Fault)

namespace Session

/-- A session before anything has run. -/
def fresh (time : Float) : Session :=
  ⟨.fresh time, []⟩

/-- Adds reports to the log. -/
def report (s : Session) (reports : List Report) : Session :=
  { s with log := s.log ++ reports }

/-- Forgets all reports. -/
def reset (s : Session) : Session :=
  { s with log := [] }

/-- Forgets what was printed. -/
def drain (s : Session) : Session :=
  { s with machine := { s.machine with output := "" } }

/-- Binds a native under its name. -/
def defineNative (s : Session) (f : Native) : Session :=
  { s with machine := s.machine.defineNative f }

/-- The session with further reports, and the next stage unless the log holds a problem. -/
def proceed (s : Session) (reports : List Report) (next : Stage) : Session × Progress :=
  let after := s.report reports
  (after, if after.log.hasCompileError then .done else .more next)

/-- One phase of a run. -/
def advance (limits : Limits) (s : Session) : Stage → Session × Progress
  | .source text =>
    let scan := Token.scan text
    s.proceed scan.reports (.tokens scan.stream)
  | .tokens stream =>
    let program := Program.read Program.argumentLimit stream
    s.proceed program.reports (.tree stream program.statements)
  | .tree _ statements =>
    let outcome := Binding.program s.machine.globals.names statements
    match outcome.result with
    | .ok bound => s.proceed outcome.reports (.bound bound)
    | .error node => (s.report outcome.reports, .escaped (.unknown node))
  | .bound statements =>
    let ending := s.machine.interpret limits statements
    let after := { s with machine := ending.machine }.report ending.reports
    (after, match ending.escaped with | none => .done | some fault => .escaped fault)

/-- What a run of a text leaves behind. -/
structure Pass where
  session : Session
  phases : List Phase
  listing : String
  escaped : Option Fault

/-- Runs from a stage through at most `fuel` phases. -/
def runFrom (limits : Limits) : Nat → Session → Stage → Pass
  | 0, s, _ => ⟨s, [], "", none⟩
  | fuel + 1, s, stage =>
    match s.advance limits stage with
    | (after, .more next) =>
      let rest := runFrom limits fuel after next
      { rest with
        phases := stage.phase :: rest.phases
        listing := stage.listing ++ rest.listing }
    | (after, .done) => ⟨after, [stage.phase], stage.listing, none⟩
    | (after, .escaped fault) => ⟨after, [stage.phase], stage.listing, some fault⟩

/-- Runs a text. -/
def run (limits : Limits) (s : Session) (source : String) : Pass :=
  runFrom limits 4 s (.source source)

end Session

/-! ## Checking without running -/

/-- The statements of a text and all that can be reported before it runs. -/
structure Checked where
  statements : List (Stmt Unit)
  log : Log

/-- Checks a text; no phase stops the next. -/
def Checked.ofSource (source : String) : Checked :=
  let scan := Token.scan source
  let program := Program.read Program.argumentLimit scan.stream
  let outcome := Binding.program [] program.statements
  ⟨program.statements, scan.reports ++ program.reports ++ outcome.reports⟩

end Offside
