import Offside.CommandLine.Arguments
import Offside.Files
import Offside.Repl

/-!
# The command

Without a script the command starts an interactive session; with one it runs the script, shows the reports
and, if asked, how long each phase took.  The exit status tells a wrong command line (64), a program that
cannot run (65), a missing file (66) and a program that was stopped (70) apart.
-/

set_option autoImplicit false

namespace Offside.CommandLine

/-- The first line of help and of a refusal. -/
def usage : String :=
  "usage: craft [-h] [--timings] [script]\n"

/-- The text of help. -/
def helpText : String :=
  usage ++
    "\nCraftLang interpreter.\n" ++
    "\npositional arguments:\n" ++
    "  script      Path to a CraftLang source file. Omit to start the REPL.\n" ++
    "\noptions:\n" ++
    "  -h, --help  show this help message and exit\n" ++
    "  --timings   Print how long each phase took to stderr.\n"

/-- The text of a refusal. -/
def refusal (message : String) : String :=
  usage ++ "craft: error: " ++ message ++ "\n"

/-- The text for a script that is not a file. -/
def notFound (path : String) : String :=
  "File not found: " ++ path ++ "\n"

/-- Exit status of a wrong command line. -/
def usageStatus : Nat := 64

/-- Exit status of a missing file. -/
def missingStatus : Nat := 66

/-- How the command ended: with an exit status, or because the script cannot be read or is not UTF-8. -/
inductive Exit where
  | status (code : Nat)
  | unreadable (reason : String)
  | notText
  deriving DecidableEq, Repr

/-- What the command did, as seen from outside. -/
structure Outcome where
  exit : Exit
  transcript : Repl.Transcript
  deriving DecidableEq, Repr

/-- An outcome without prompts. -/
def Outcome.plain (exit : Exit) (shown : Shown) : Outcome :=
  ⟨exit, ⟨[], shown⟩⟩

/-- What the command finds around it.  `duration` is the text for the milliseconds of a phase. -/
structure World where
  files : FileTree
  inputs : List Repl.Input
  debug : Bool
  time : Float
  duration : Phase → String

/-- The lines that tell how long each phase took. -/
def timingText (duration : Phase → String) (phases : List Phase) : String :=
  String.join (phases.map fun phase => phase.timing (duration phase) ++ "\n")

/-- What a script shows besides its output: the listing, its reports and its times, as far as asked for. -/
def scriptErr (debug timings : Bool) (duration : Phase → String) (pass : Session.Pass) : String :=
  (if debug then pass.listing else "") ++ pass.session.log.text ++
    (if timings then timingText duration pass.phases else "")

/-- Runs the text of a script. -/
def runText (limits : Limits) (world : World) (timings : Bool) (source : String) : Outcome :=
  let pass := (Session.fresh world.time).run limits source
  .plain (.status pass.session.log.exitStatus)
    ⟨pass.session.machine.output, scriptErr world.debug timings world.duration pass⟩

/-- Runs a script file. -/
def runScript (limits : Limits) (world : World) (timings : Bool) (path : String) : Outcome :=
  match world.files.find path with
  | .ok (.file bytes) =>
    match Text.ofBytes? bytes with
    | none => .plain .notText .nothing
    | some source => runText limits world timings source
  | .ok (.unreadable reason) => .plain (.unreadable reason) .nothing
  | .ok .directory | .error _ => .plain (.status missingStatus) ⟨"", notFound path⟩

/-- Runs an interactive session. -/
def runRepl (limits : Limits) (world : World) : Outcome :=
  let transcript := (Repl.start world.time).play limits world.debug world.inputs
  ⟨.status 0, { transcript with shown := (Shown.mk Repl.banner "").append transcript.shown }⟩

/-- Runs the command. -/
def run (limits : Limits) (world : World) (arguments : List String) : Outcome :=
  match Request.ofArguments arguments with
  | .help => .plain (.status 0) ⟨helpText, ""⟩
  | .refused message => .plain (.status usageStatus) ⟨"", refusal message⟩
  | .script path timings => runScript limits world timings path
  | .repl => runRepl limits world

end Offside.CommandLine
