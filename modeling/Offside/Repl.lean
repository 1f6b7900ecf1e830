import Offside.Session
import Offside.Text.Blank

/-!
# The interactive session

Lines are collected into entries.  An entry whose first line ends with a colon goes on until a blank line;
every other entry is one line.  A finished entry runs on the session, its reports are shown, and the log
is cleared, so that an error in one entry does not touch the next.
-/

set_option autoImplicit false

namespace Offside

/-- Text for the two output channels. -/
structure Shown where
  out : String
  err : String
  deriving DecidableEq, Repr

namespace Shown

/-- Nothing is shown. -/
def nothing : Shown := ⟨"", ""⟩

/-- One thing shown behind another. -/
def append (a b : Shown) : Shown :=
  ⟨a.out ++ b.out, a.err ++ b.err⟩

end Shown

/-- Every report of a log on lines of its own. -/
def Log.text (log : Log) : String :=
  String.join (log.map fun r => r.text ++ "\n")

/-- An interactive session: what has run, and the lines of an entry that is not finished. -/
structure Repl where
  session : Session
  buffer : List String

namespace Repl

/-- An interactive session at its start. -/
def start (time : Float) : Repl :=
  ⟨.fresh time, []⟩

/-- What is shown before the first line. -/
def banner : String :=
  "CraftLang Interpreter - REPL\nType `exit` or `quit` to leave.\n"

/-- What is shown when the user interrupts. -/
def interrupted : String :=
  "\nInterrupted.\n"

/-- What is shown when the input ends. -/
def ended : String :=
  "\n"

/-- The prompt for the next line. -/
def prompt (r : Repl) : String :=
  if r.buffer.isEmpty then "> " else "... "

/-- Whether a line opens a block. -/
def opensBlock (line : String) : Bool :=
  (Text.trimEnd line.toList).getLast? == some ':'

/-- Whether the lines of an entry call for another. -/
def needsMore (buffer : List String) : Bool :=
  match buffer.head?, buffer.getLast? with
  | some first, some last => opensBlock first && !Text.allBlank last.toList
  | _, _ => false

/-- Whether a line asks to leave. -/
def isFarewell (line : String) : Bool :=
  let word := String.ofList (Text.trim line.toList)
  word == "exit" || word == "quit"

/-- Runs an entry: the listing if asked for, what the program prints, and the reports, which are then
forgotten. -/
def runEntry (limits : Limits) (debug : Bool) (session : Session) (entry : List String) :
    Session × Shown :=
  let pass := session.drain.run limits ("\n".intercalate entry)
  let err := (if debug then pass.listing else "") ++ pass.session.log.text
  (pass.session.reset, ⟨pass.session.machine.output, err⟩)

/-- Takes a line; `none` if the line asks to leave. -/
def feed (limits : Limits) (debug : Bool) (r : Repl) (line : String) : Option (Repl × Shown) :=
  if r.buffer.isEmpty && isFarewell line then none
  else
    let buffer := r.buffer ++ [line]
    if needsMore buffer then some ({ r with buffer := buffer }, .nothing)
    else
      let result := runEntry limits debug r.session buffer
      some (⟨result.1, []⟩, result.2)

/-- What the user enters: a line or an interrupt. -/
inductive Input where
  | line (text : String)
  | interrupt
  deriving DecidableEq, Repr

/-- A whole interactive session as seen from outside. -/
structure Transcript where
  prompts : List String
  shown : Shown
  deriving DecidableEq, Repr

/-- Puts a prompt and what is shown in answer in front of a transcript. -/
def Transcript.after (prompt : String) (shown : Shown) (t : Transcript) : Transcript :=
  ⟨prompt :: t.prompts, shown.append t.shown⟩

/-- Takes all inputs, up to one that leaves, or else the end of input. -/
def play (limits : Limits) (debug : Bool) (r : Repl) : List Input → Transcript
  | [] => ⟨[r.prompt], ⟨ended, ""⟩⟩
  | .interrupt :: _ => ⟨[r.prompt], ⟨interrupted, ""⟩⟩
  | .line text :: more =>
    match r.feed limits debug text with
    | none => ⟨[r.prompt], .nothing⟩
    | some (next, shown) => (next.play limits debug more).after r.prompt shown

end Repl
end Offside
