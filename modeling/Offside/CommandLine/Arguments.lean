import Offside.Text.Digit
import Offside.Text.Quoted

/-!
# Command line arguments

The command takes one script at most and two options.  Arguments are read from left to right; `-h` and an
option with a value it does not take end the reading at once, whatever comes later.  Arguments that are
neither the script nor an option are collected and refused together at the end.

Behind `--` nothing is an option.  A lone dash, a negative number, an empty argument and an argument with a
space are not options either.
-/

set_option autoImplicit false

namespace Offside.CommandLine

/-- What a single argument asks for. -/
inductive Argument where
  | help
  | timings
  /-- An option with a value it does not take. -/
  | valued (option value : String)
  | unknown
  | plain
  deriving DecidableEq, Repr

/-- The name of the help option in messages. -/
def helpName : String := "-h/--help"

/-- The name of the timing option. -/
def timingsName : String := "--timings"

/-- What stands behind a dash and an `h`: each further `h` asks for help again, and anything else from there
on is a value, which help does not take. -/
def helpCluster : List Char → Argument
  | [] => .help
  | c :: more => if c = 'h' then helpCluster more else .valued helpName (String.ofList (c :: more))

/-- What stands behind `-h` with an equals sign: the same, but nothing is a value as well. -/
def helpValue (value : List Char) : Argument :=
  if value.isEmpty then .valued helpName "" else helpCluster value

/-- Decimal digits up to the end, where one line feed may follow. -/
def isDigitRun (cs : List Char) : Bool :=
  let rest := cs.dropWhile Text.isDigit
  !(cs.takeWhile Text.isDigit).isEmpty && (rest.isEmpty || rest == ['\n'])

/-- A negative number: digits with an optional fraction behind a dash. -/
def isNegativeNumber (cs : List Char) : Bool :=
  match cs with
  | '-' :: digits =>
    isDigitRun digits ||
      match digits.dropWhile Text.isDigit with
      | '.' :: places => isDigitRun places
      | _ => false
  | _ => false

/-- An argument that starts with a dash and names no option as a whole. -/
def classifyDashed (cs : List Char) : Argument :=
  let value := (cs.dropWhile (· != '=')).tail
  let option := String.ofList (cs.takeWhile (· != '='))
  if cs.contains '=' && option == timingsName then .valued timingsName (String.ofList value)
  else if cs.contains '=' && option == "--help" then .valued helpName (String.ofList value)
  else if cs.contains '=' && option == "-h" then helpValue value
  else if cs.take 2 == ['-', 'h'] then helpCluster (cs.drop 2)
  else if isNegativeNumber cs || cs.contains ' ' then .plain
  else .unknown

/-- What an argument in front of `--` asks for. -/
def classify (argument : String) : Argument :=
  match argument.toList with
  | '-' :: c :: cs =>
    if argument == "--help" then .help
    else if argument == timingsName then .timings
    else classifyDashed ('-' :: c :: cs)
  | _ => .plain

/-- What the command line asks for. -/
inductive Request where
  | help
  | repl
  | script (path : String) (timings : Bool)
  | refused (message : String)
  deriving DecidableEq, Repr

/-- What has been read so far. -/
structure Collected where
  script : Option String
  timings : Bool
  extras : List String
  deriving DecidableEq, Repr

namespace Collected

/-- Nothing has been read. -/
def empty : Collected := ⟨none, false, []⟩

/-- Refuses what was left over, or else runs the script or the interactive session. -/
def finish (r : Collected) : Request :=
  if r.extras.isEmpty then
    match r.script with
    | some path => .script path r.timings
    | none => .repl
  else .refused ("unrecognized arguments: " ++ " ".intercalate r.extras)

/-- Takes the arguments behind `--`.  The mark itself is left over if the script was taken before and not
right in front of it. -/
def takeRest (r : Collected) (afterScript : Bool) (arguments : List String) : Collected :=
  match r.script, arguments with
  | none, [] => r
  | none, path :: more => { r with script := some path, extras := r.extras ++ more }
  | some _, more =>
    { r with extras := r.extras ++ (if afterScript then more else "--" :: more) }

/-- Reads arguments from left to right; `afterScript` says whether the last one was taken as the script. -/
def take (r : Collected) (afterScript : Bool) : List String → Request
  | [] => r.finish
  | argument :: more =>
    if argument == "--" then (r.takeRest afterScript more).finish
    else
      match classify argument with
      | .help => .help
      | .timings => { r with timings := true }.take false more
      | .valued option value =>
        .refused ("argument " ++ option ++ ": ignored explicit argument " ++ Text.quoted value)
      | .unknown => { r with extras := r.extras ++ [argument] }.take false more
      | .plain =>
        match r.script with
        | none => { r with script := some argument }.take true more
        | some _ => { r with extras := r.extras ++ [argument] }.take false more

end Collected

/-- What a list of arguments asks for. -/
def Request.ofArguments (arguments : List String) : Request :=
  Collected.empty.take false arguments

end Offside.CommandLine
