import Offside.CommandLine

/-!
# The executable

Reads arguments, files and lines, and writes what the library answers.
-/

set_option autoImplicit false

namespace Offside.Main

open CommandLine

/-- The time in seconds. -/
def now : IO Float := do
  return (Float.ofNat (← IO.monoMsNow)) / 1000

/-- Whether listings are asked for. -/
def debugging : IO Bool := do
  return !((← IO.getEnv "CRAFTDEBUG").getD "").isEmpty

/-- Writes to both output channels. -/
def emit (shown : Shown) : IO Unit := do
  IO.print shown.out
  (← IO.getStdout).flush
  IO.eprint shown.err

/-- Milliseconds with three decimal places. -/
def milliseconds (nanoseconds : Nat) : String :=
  let micros := toString (nanoseconds / 1000 % 1000)
  toString (nanoseconds / 1000000) ++ "." ++ "".pushn '0' (3 - micros.length) ++ micros

/-- Runs a script phase by phase, taking the time of each. -/
def timed (limits : Limits) (debug : Bool) : Nat → Session → Stage → List String →
    IO (Session × List String)
  | 0, session, _, times => return (session, times)
  | fuel + 1, session, stage, times => do
    if debug then IO.eprint stage.listing
    let started ← IO.monoNanosNow
    let (after, progress) ← IO.lazyPure fun _ => session.advance limits stage
    let elapsed := (← IO.monoNanosNow) - started
    let times := times ++ [stage.phase.timing (milliseconds elapsed) ++ "\n"]
    match progress with
    | .more next => timed limits debug fuel after next times
    | _ => return (after, times)

/-- The bytes of a file; `none` if it cannot be read. -/
def readBytes? (path : String) : IO (Option ByteArray) := do
  try
    return some (← IO.FS.readBinFile path)
  catch _ =>
    return none

/-- Runs a script file. -/
def script (path : String) (timings : Bool) : IO UInt32 := do
  match ← readBytes? path with
  | none =>
    emit ⟨"", notFound path⟩
    return missingStatus.toUInt32
  | some bytes =>
    match Text.ofBytes? bytes with
    | none =>
      emit ⟨"", path ++ " is not UTF-8\n"⟩
      return 1
    | some source =>
      let (session, times) ← timed .standard (← debugging) 4 (.fresh (← now)) (.source source) []
      emit ⟨session.machine.output, session.log.text ++ (if timings then String.join times else "")⟩
      return session.log.exitStatus.toUInt32

/-- Takes lines until one asks to leave or the input ends. -/
partial def converse (debug : Bool) (repl : Repl) : IO Unit := do
  IO.print repl.prompt
  (← IO.getStdout).flush
  let line ← (← IO.getStdin).getLine
  if line.isEmpty then
    IO.print Repl.ended
  else
    let text := if line.endsWith "\n" then (line.dropEnd 1).toString else line
    match repl.feed .standard debug text with
    | none => return ()
    | some (next, shown) =>
      emit shown
      converse debug next

end Offside.Main

open Offside Offside.CommandLine in
/-- Runs the command. -/
def main (arguments : List String) : IO UInt32 := do
  match Request.ofArguments arguments with
  | .help =>
    Main.emit ⟨helpText, ""⟩
    return 0
  | .refused message =>
    Main.emit ⟨"", refusal message⟩
    return usageStatus.toUInt32
  | .script path timings => Main.script path timings
  | .repl =>
    IO.print Repl.banner
    Main.converse (← Main.debugging) (.start (← Main.now))
    return 0
