import Offside.Binding
import Offside.Frames
import Offside.Native

/-!
# Values

What expressions evaluate to.  Functions, natives, classes and foreign objects carry a serial number that
stands for their identity; an instance is known by its place in the store of fields.  A class value holds
its own layer of methods and those of its ancestors, nearest first.
-/

set_option autoImplicit false

namespace Offside

open Binding (Distance)

/-! ## Functions and classes -/

/-- A function together with the frame in which it was defined, or, for a method of an instance, the frame
that binds `this`. -/
structure Closure where
  serial : Nat
  routine : Routine Distance
  frame : FrameId
  isInitializer : Bool

/-- The methods that one class declaration contributes. -/
structure Class.Layer where
  serial : Nat
  name : String
  methods : Bindings Closure

/-- A class: its own layer and those of its ancestors, nearest first. -/
structure Class where
  own : Class.Layer
  ancestors : List Class.Layer

namespace Class

/-- All layers, the class itself first. -/
def lineage (c : Class) : List Layer :=
  c.own :: c.ancestors

/-- The method of the first layer that has one of that name. -/
def findMethod? (c : Class) (name : String) : Option Closure :=
  c.lineage.findSome? fun layer => layer.methods.get? name

/-- The method that sets up new instances. -/
def initializer? (c : Class) : Option Closure :=
  c.findMethod? Routine.initializerName

end Class

/-! ## Values -/

/-- The place of an instance in the store of fields. -/
abbrev InstanceId := Nat

/-- A value. -/
inductive Value where
  | null
  | boolean (b : Bool)
  | number (n : Number)
  | text (s : String)
  | function (f : Closure)
  | native (serial : Nat) (f : Native)
  | classValue (c : Class)
  | object (id : InstanceId) (c : Class)
  | foreign (serial : Nat)

namespace Value

/-- The value of a literal. -/
def ofLiteral : Literal → Value
  | .null => null
  | .boolean b => boolean b
  | .number x => number (.double x)
  | .text s => text s

/-- Only null and false count as false. -/
def isTruthy : Value → Bool
  | null => false
  | boolean b => b
  | _ => true

/-- Numbers and texts are equal by value, everything else by identity. -/
def equal : Value → Value → Bool
  | null, null => true
  | boolean a, boolean b => a == b
  | number a, number b => a.equal b
  | text a, text b => a == b
  | function a, function b => a.serial == b.serial
  | native a _, native b _ => a == b
  | classValue a, classValue b => a.own.serial == b.own.serial
  | object a _, object b _ => a == b
  | foreign a, foreign b => a == b
  | _, _ => false

/-- The name of a kind of value. -/
def kindName : Value → String
  | null => "null"
  | boolean _ => "boolean"
  | number _ => "number"
  | text _ => "string"
  | function _ => "function"
  | native _ _ => "function"
  | classValue _ => "class"
  | object _ _ => "instance"
  | foreign _ => "Opaque"

/-- The value that is a datum. -/
def ofDatum : Datum → Value
  | .null => null
  | .boolean b => boolean b
  | .number n => number n
  | .text s => text s

/-- What can be seen of a value by looking at it. -/
def view : Value → View
  | null => .datum .null
  | boolean b => .datum (.boolean b)
  | number n => .datum (.number n)
  | text s => .datum (.text s)
  | function f => .function f.routine.name.lexeme
  | native _ f => .native f.name
  | classValue c => .classValue c.own.name
  | object _ c => .object c.own.name
  | foreign _ => .foreign

/-- The text of a value in program output. -/
def display (v : Value) : String :=
  v.view.display

end Value

/-- The number of arguments that a call takes; `none` for a value that cannot be called. -/
def Value.arity? : Value → Option Nat
  | .function f => some f.routine.params.length
  | .native _ f => some f.arity
  | .classValue c => some ((c.initializer?.map fun f => f.routine.params.length).getD 0)
  | _ => none

end Offside
