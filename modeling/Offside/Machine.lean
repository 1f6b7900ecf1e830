import Offside.Value

/-!
# The machine

The state in which programs run: frames, fields of instances, the current frame and what has been printed.
A run yields a value or stops with a fault; either way the machine keeps what was done before.

The global frame is the first frame of the store.
-/

set_option autoImplicit false

namespace Offside

/-- The state of a running program. -/
structure Machine where
  frames : Frames Value
  /-- The fields of each instance. -/
  fields : Array (Bindings Value)
  /-- The serial number of the next function, class or foreign object. -/
  nextSerial : Nat
  current : FrameId
  output : String
  /-- The time in seconds, as told by the host. -/
  time : Float

/-- The place of the global frame. -/
def Machine.globalFrame : FrameId := 0

/-- Why a run stopped. -/
inductive Fault where
  /-- An error of the program, on a line if one is known. -/
  | error (line : Option Int) (problem : Problem)
  /-- The nesting of evaluations exceeded its limit. -/
  | overflow
  /-- A loop exceeded its limit of repetitions. -/
  | exhausted
  /-- A name is missing from the frame to which it was bound, or a reference has no distance. -/
  | missingName
  /-- A distance leads past the global frame, or to something that is not a class. -/
  | missingFrame
  /-- A whole number that the host supplied went beyond all doubles where a double was needed. -/
  | tooLarge
  /-- A node of unknown kind. -/
  | unknown (node : Binding.Unknown)
  deriving DecidableEq, Repr

/-- A step of a running program. -/
abbrev Run := EStateM Fault Machine

/-- What a statement does to the statements behind it. -/
inductive Flow where
  /-- They are executed next. -/
  | next
  /-- They are skipped: the enclosing call ends with a value. -/
  | back (value : Value)

namespace Run

/-- Stops with an error at a token. -/
def fail {α : Type} (t : Token) (problem : Problem) : Run α :=
  throw (.error (some t.line) problem)

/-- The fault for something that a reference does not find. -/
def faultOf : Absent → Fault
  | .frame => .missingFrame
  | .name => .missingName

/-- Takes a new serial number. -/
def newSerial : Run Nat :=
  fun m => .ok m.nextSerial { m with nextSerial := m.nextSerial + 1 }

/-- Adds a frame enclosed by the given one. -/
def newFrame (enclosing : FrameId) : Run FrameId :=
  fun m => .ok m.frames.size { m with frames := m.frames.add (some enclosing) }

/-- Adds an instance without fields. -/
def newInstance : Run InstanceId :=
  fun m => .ok m.fields.size { m with fields := m.fields.push [] }

/-- Binds a name in a frame. -/
def defineIn (frame : FrameId) (name : String) (value : Value) : Run Unit :=
  fun m => .ok () { m with frames := m.frames.define frame name value }

/-- Binds a name in the current frame. -/
def define (name : String) (value : Value) : Run Unit :=
  fun m => .ok () { m with frames := m.frames.define m.current name value }

/-- Binds a name in the frame `distance` links up from the current one. -/
def defineAt (distance : Nat) (name : String) (value : Value) : Run Unit :=
  fun m =>
    match m.frames.ancestor? distance m.current with
    | none => .error .missingFrame m
    | some place => .ok () { m with frames := m.frames.define place name value }

/-- The value of a name in the frame `distance` links up from `frame`. -/
def readAt (frame : FrameId) (distance : Nat) (name : String) : Run Value :=
  fun m =>
    match m.frames.getAt frame distance name with
    | .ok value => .ok value m
    | .error absent => .error (faultOf absent) m

/-- The value of a name in the global frame. -/
def readGlobal (t : Token) : Run Value :=
  fun m =>
    match (m.frames.bindingsOf Machine.globalFrame).get? t.lexeme with
    | some value => .ok value m
    | none => .error (.error (some t.line) (.undefinedVariable t.lexeme)) m

/-- The current frame. -/
def currentFrame : Run FrameId :=
  fun m => .ok m.current m

/-- Runs a step in a frame and comes back to the current one, however the step ends. -/
def inFrame {α : Type} (frame : FrameId) (step : Run α) : Run α :=
  fun m =>
    let before := m.current
    match step { m with current := frame } with
    | .ok a after => .ok a { after with current := before }
    | .error e after => .error e { after with current := before }

/-- Prints a line. -/
def printLine (s : String) : Run Unit :=
  fun m => .ok () { m with output := m.output ++ s ++ "\n" }

/-- The value of a field of an instance. -/
def readField? (id : InstanceId) (name : String) : Run (Option Value) :=
  fun m => .ok (m.fields[id]?.bind fun bindings => bindings.get? name) m

/-- Sets a field of an instance. -/
def writeField (id : InstanceId) (name : String) (value : Value) : Run Unit :=
  fun m => .ok () { m with fields := m.fields.modify id fun bindings => bindings.put name value }

end Run

namespace Machine

/-- Binds a native under its name in the global frame. -/
def defineNative (m : Machine) (f : Native) : Machine :=
  { m with
    frames := m.frames.define globalFrame f.name (.native m.nextSerial f)
    nextSerial := m.nextSerial + 1 }

/-- A machine before any program has run; its global frame binds the clock. -/
def fresh (time : Float) : Machine :=
  defineNative
    { frames := #[⟨[], none⟩]
      fields := #[]
      nextSerial := 0
      current := globalFrame
      output := ""
      time := time }
    .clock

/-- The bindings of the global frame. -/
def globals (m : Machine) : Bindings Value :=
  m.frames.bindingsOf globalFrame

/-- Whether the global frame is the current one. -/
def atGlobalFrame (m : Machine) : Bool :=
  m.current == globalFrame

/-- The fields of a value that is an instance. -/
def fieldsOf? (m : Machine) : Value → Option (Bindings Value)
  | .object id _ => m.fields[id]?
  | _ => none

end Machine
end Offside
