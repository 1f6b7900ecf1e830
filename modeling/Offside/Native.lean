import Offside.Literal
import Offside.Number
import Offside.Problem

/-!
# Natives

Functions that the host offers to scripts.  What a native does is a script of requests to the machine.  It holds a
hand of values, at first its arguments, and names them by their positions: it may look at them, compare two of them,
read and write their fields, and take up new values.  Nothing else can be reached from there: neither frames nor the
values of other calls, and nothing is kept from one call to the next.

* `Datum`, `View` — values without an identity, and what is seen of a value by looking at it;
* `Native.Script` — requests, each with what follows for every answer to it;
* `Native` — a native with its name and its number of arguments;
* `Native.clock` and others — the clock, and some natives of a host.
-/

set_option autoImplicit false

namespace Offside

/-! ## What natives see -/

/-- A value that has no identity and refers to nothing. -/
inductive Datum where
  | null
  | boolean (b : Bool)
  | number (n : Number)
  | text (s : String)

/-- The text of a datum in program output. -/
def Datum.display : Datum → String
  | null => "null"
  | boolean true => "true"
  | boolean false => "false"
  | number n => n.display
  | text s => s

/-- What is seen of a value by looking at it: a datum, or the kind of the value and its name. -/
inductive View where
  | datum (d : Datum)
  | function (name : String)
  | native (name : String)
  | classValue (name : String)
  | object (className : String)
  | foreign

namespace View

/-- The text of the value in program output. -/
def display : View → String
  | datum d => d.display
  | function name => "<fn " ++ name ++ ">"
  | native _ => "<native fn>"
  | classValue name => name
  | object className => className ++ " instance"
  | foreign => "<opaque>"

/-- The name that the host gives to the value: null, truth values and doubles are spelled in its own way. -/
def hostName : View → String
  | datum .null => Literal.listing .null
  | datum (.boolean b) => Literal.listing (.boolean b)
  | datum (.number (.double x)) => Literal.listing (.number x)
  | view => view.display

end View

/-! ## Scripts -/

/-- What a native does.  Positions in the hand count from zero; a position behind the hand stands for null. -/
inductive Native.Script where
  /-- Gives back a value of the hand. -/
  | give (i : Nat)
  /-- Refuses the arguments, with a text. -/
  | refuse (text : String)
  /-- Stops the program with an error of its own, on a line if it states one. -/
  | raise (line : Option Int) (problem : Problem)
  /-- Stops the program because the host's own nesting exceeded its limit. -/
  | overflow
  /-- Looks at a value. -/
  | look (i : Nat) (next : View → Native.Script)
  /-- Compares two values. -/
  | compare (i j : Nat) (next : Bool → Native.Script)
  /-- Asks for the time. -/
  | time (next : Float → Native.Script)
  /-- Takes up a datum. -/
  | hold (d : Datum) (next : Native.Script)
  /-- Makes a foreign object and takes it up. -/
  | make (next : Native.Script)
  /-- Takes up the value of a field, if the value at `i` is an instance that has the field. -/
  | read (i : Nat) (field : String) (next : Bool → Native.Script)
  /-- Sets a field to the value at `j`, if the value at `i` is an instance. -/
  | write (i : Nat) (field : String) (j : Nat) (next : Native.Script)
  /-- Prints a line. -/
  | print (line : String) (next : Native.Script)

/-- A function that the host offers to scripts under a global name. -/
structure Native where
  name : String
  arity : Nat
  script : Native.Script
  /-- The name is not one that classes bind. -/
  bindable : name ≠ "this" ∧ name ≠ "super"

namespace Native

/-- Gives back a datum, the hand being `n` values. -/
def Script.answer (n : Nat) (d : Datum) : Script :=
  .hold d (.give n)

/-! ## The clock, and natives of a host -/

/-- The time in seconds. -/
def clock : Native where
  name := "clock"
  arity := 0
  script := .time fun x => .answer 0 (.number (.double x))
  bindable := by decide

/-- The length of a text. -/
def len : Native where
  name := "len"
  arity := 1
  script := .look 0 fun
    | .datum (.text s) => .answer 1 (.number (.whole (Int.ofNat s.length)))
    | _ => .refuse "len needs a string"
  bindable := by decide

/-- The whole number next to a number in the direction of zero. -/
def int : Native where
  name := "int"
  arity := 1
  script := .look 0 fun
    | .datum (.number n) =>
      match n.truncate? with
      | some k => .answer 1 (.number (.whole k))
      | none => .refuse "int needs a finite number"
    | _ => .refuse "int needs a finite number"
  bindable := by decide

/-- The argument. -/
def same : Native where
  name := "same"
  arity := 1
  script := .give 0
  bindable := by decide

/-- Two values as one text. -/
def join : Native where
  name := "join"
  arity := 2
  script := .look 0 fun a => .look 1 fun b => .answer 2 (.text (a.display ++ "|" ++ b.display))
  bindable := by decide

/-- Null. -/
def nothing : Native where
  name := "none"
  arity := 0
  script := .answer 0 .null
  bindable := by decide

/-- A new foreign object. -/
def foreign : Native where
  name := "opaque"
  arity := 0
  script := .make (.give 0)
  bindable := by decide

/-- Refuses its argument. -/
def fail : Native where
  name := "fail"
  arity := 1
  script := .look 0 fun v => .refuse v.display
  bindable := by decide

/-- Stops the program with an error on no line. -/
def raise : Native where
  name := "craftError"
  arity := 0
  script := .raise none (.stated "Raised by the host.")
  bindable := by decide

/-- Stops the program as an undefined variable does, on a line of the host's choice. -/
def raiseUndefined : Native where
  name := "undefinedError"
  arity := 1
  script := .look 0 fun v => .raise (some 99) (.undefinedVariable v.hostName)
  bindable := by decide

/-- Stops the program as nesting without a bound does. -/
def overflow : Native where
  name := "overflow"
  arity := 0
  script := .overflow
  bindable := by decide

/-- The natives that are given here. -/
def all : List Native :=
  [clock, len, int, same, join, nothing, foreign, fail, raise, raiseUndefined, overflow]

/-- The native of a given name among them. -/
def ofName? (s : String) : Option Native :=
  all.find? fun f => f.name == s

end Native
end Offside
