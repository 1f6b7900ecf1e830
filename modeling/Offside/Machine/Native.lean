import Offside.Machine

/-!
# Natives at work

A native gives back a value or refuses its arguments with a text; the call turns a refusal into an error of
the program.  Some natives stop the run themselves.
-/

set_option autoImplicit false

namespace Offside

namespace Run

/-- The time. -/
def now : Run Float :=
  fun m => .ok m.time m

/-- The field of a value, if it is an instance that has the field. -/
def fieldOf? (v : Value) (name : String) : Run (Option Value) :=
  match v with
  | .object id _ => readField? id name
  | _ => return none

/-- Sets a field of a value, if it is an instance. -/
def setFieldOf (v : Value) (name : String) (value : Value) : Run Unit :=
  match v with
  | .object id _ => writeField id name value
  | _ => return ()

end Run

namespace Native

/-- The value at a position of the hand. -/
def held (hand : List Value) (i : Nat) : Value :=
  hand.getD i .null

/-- What a script comes to with the given hand; what it takes up goes behind the hand. -/
def Script.run : Script → List Value → Run (Except String Value)
  | give i, hand => return .ok (held hand i)
  | refuse text, _ => return .error text
  | raise line problem, _ => throw (.error line problem)
  | overflow, _ => throw .overflow
  | look i next, hand => (next (held hand i).view).run hand
  | compare i j next, hand => (next ((held hand i).equal (held hand j))).run hand
  | time next, hand => do (next (← Run.now)).run hand
  | hold d next, hand => next.run (hand ++ [.ofDatum d])
  | make next, hand => do next.run (hand ++ [.foreign (← Run.newSerial)])
  | read i field next, hand => do
    let found ← Run.fieldOf? (held hand i) field
    (next found.isSome).run (hand ++ found.toList)
  | write i field j next, hand => do
    Run.setFieldOf (held hand i) field (held hand j)
    next.run hand
  | print line next, hand => do
    Run.printLine line
    next.run hand

/-- What a native does with its arguments. -/
def apply (f : Native) (arguments : List Value) : Run (Except String Value) :=
  f.script.run arguments

end Native
end Offside
