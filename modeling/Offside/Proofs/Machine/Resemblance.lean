import Mathlib.Data.List.Forall2
import Offside.Machine.Native
import Offside.Machine.Operators

/-!
# Values that look alike

Operators and natives look at numbers, texts and truth, and at how a value is shown.  They do the same with values
that agree on these, whatever else the values stand for.

* `Value.Resembles` — such values;
* `Value.Resembles.view` — natives see the same of them;
* `Run.unary_eq`, `Run.plus_eq`, `Run.binary_eq` — what operators do with them;
* `Native.held_of_forall`, `Native.held_of_forall₂` — the hands of natives.
-/

set_option autoImplicit false

namespace Offside

/-- Two values that cannot be told apart by looking at one of them at a time: they are equal numbers, texts or truth
values, or both have an identity and are shown alike. -/
inductive Value.Resembles : Value → Value → Prop
  | null : Resembles .null .null
  | boolean (b : Bool) : Resembles (.boolean b) (.boolean b)
  | number (n : Number) : Resembles (.number n) (.number n)
  | text (s : String) : Resembles (.text s) (.text s)
  | function {f f' : Closure} (name : f'.routine.name.lexeme = f.routine.name.lexeme) :
      Resembles (.function f) (.function f')
  | native (serial serial' : Nat) (f : Native) : Resembles (.native serial f) (.native serial' f)
  | classValue {c c' : Class} (name : c'.own.name = c.own.name) : Resembles (.classValue c) (.classValue c')
  | object (id : InstanceId) {c c' : Class} (name : c'.own.name = c.own.name) : Resembles (.object id c) (.object id c')
  | foreign (serial serial' : Nat) : Resembles (.foreign serial) (.foreign serial')

namespace Value.Resembles

variable {v v' : Value}

theorem isTruthy (h : v.Resembles v') : v'.isTruthy = v.isTruthy := by
  cases h <;> rfl

theorem kindName (h : v.Resembles v') : v'.kindName = v.kindName := by
  cases h <;> rfl

theorem view (h : v.Resembles v') : v'.view = v.view := by
  cases h with
  | function name => exact congrArg View.function name
  | classValue name => exact congrArg View.classValue name
  | object id name => exact congrArg View.object name
  | _ => rfl

theorem display (h : v.Resembles v') : v'.display = v.display :=
  congrArg View.display h.view

end Value.Resembles

namespace Run

variable {l l' r r' : Value}

theorem unary_eq (operator : Token) (h : r.Resembles r') : unary operator r' = unary operator r := by
  unfold unary
  rw [h.isTruthy]
  split
  · cases h <;> rfl
  · rfl

theorem plus_eq (operator : Token) (hl : l.Resembles l') (hr : r.Resembles r') :
    plus operator l' r' = plus operator l r := by
  have hdl := hl.display
  have hdr := hr.display
  have hkl := hl.kindName
  have hkr := hr.kindName
  cases hl <;> cases hr <;> simp only [plus, hdl, hdr, hkl, hkr]

/-- Binary operators may also compare the values, which is up to what they stand for. -/
theorem binary_eq (operator : Token) (hl : l.Resembles l') (hr : r.Resembles r') (hequal : l'.equal r' = l.equal r) :
    binary operator l' r' = binary operator l r := by
  unfold binary
  split
  · cases hl <;> cases hr <;> rfl
  · rw [plus_eq operator hl hr, hequal]

end Run

namespace Native

/-! ## Hands -/

variable {hand hand' : List Value}

/-- Whatever is in a hand, and null, has a property that all values of the hand have. -/
theorem held_of_forall {P : Value → Prop} (h : ∀ v ∈ hand, P v) (hnull : P .null) (i : Nat) : P (held hand i) := by
  unfold held
  rw [List.getD_eq_getElem?_getD]
  cases hv : hand[i]? with
  | none => exact hnull
  | some v => exact h v (List.mem_of_getElem? hv)

/-- At each position two hands hold values that are related as the hands are. -/
theorem held_of_forall₂ {rel : Value → Value → Prop} (h : List.Forall₂ rel hand hand') (hnull : rel .null .null)
    (i : Nat) : rel (held hand i) (held hand' i) := by
  induction h generalizing i with
  | nil => exact hnull
  | cons hv _ ih =>
    cases i with
    | zero => exact hv
    | succ i => exact ih i

end Native

end Offside
