import Offside.Machine.Evaluation
import Offside.Proofs.Binding.Visits

/-!
# Runs under watch

A watched run is a run that looks at the machine whenever an expression is evaluated or a statement
executed, at any depth, and raises an alarm where a condition on the node and the machine fails.  A run that
is the same under watch, whatever the alarm, is one in which the condition holds at every node it comes to.

* `Run.watchedEvaluate`, `Run.watchedExecute`, `Run.watchedProgram` — runs under watch;
* `Run.condition_of_guarded` — what it means that a watched step is the same whatever the alarm.
-/

set_option autoImplicit false

namespace Offside.Run

open Binding (Node Distance)

open Classical in
/-- A step that is taken only where the condition holds; elsewhere the run ends with the alarm. -/
noncomputable def guarded {α : Type} (condition : Machine → Prop) (alarm : Fault) (step : Run α) : Run α :=
  fun m => if condition m then step m else .error alarm m

/-- No alarm goes unnoticed: a step that is the same whatever the alarm is taken where the condition holds. -/
theorem condition_of_guarded {α : Type} {condition : Machine → Prop} {p q : Run α} {m : Machine}
    (h : ∀ alarm, guarded condition alarm p m = q m) : condition m := by
  refine Classical.byContradiction fun hnot => ?_
  have hraised : ∀ alarm, q m = .error alarm m := fun alarm => (h alarm).symm.trans (if_neg hnot)
  have hclash := (hraised .overflow).symm.trans (hraised .exhausted)
  cases hclash

mutual

/-- Evaluates an expression as `evaluate` does, under watch. -/
noncomputable def watchedEvaluate (condition : Node → Machine → Prop) (alarm : Fault) (limits : Limits) :
    Nat → Expr Distance → Run Value
  | 0, e => guarded (condition (.expression e)) alarm (throw .overflow)
  | depth + 1, e => guarded (condition (.expression e)) alarm
      (evaluateStep (watchedEvaluate condition alarm limits depth)
        (watchedExecute condition alarm limits depth) e)

/-- Executes a statement as `execute` does, under watch. -/
noncomputable def watchedExecute (condition : Node → Machine → Prop) (alarm : Fault) (limits : Limits) :
    Nat → Stmt Distance → Run Flow
  | 0, s => guarded (condition (.statement s)) alarm (throw .overflow)
  | depth + 1, s => guarded (condition (.statement s)) alarm
      (executeStep limits (watchedEvaluate condition alarm limits depth)
        (watchedExecute condition alarm limits depth) s)

end

/-- Executes the statements of a program as `program` does, under watch. -/
noncomputable def watchedProgram (condition : Node → Machine → Prop) (alarm : Fault) (limits : Limits) :
    List (Stmt Distance) → Run Unit
  | [] => return ()
  | s :: ss => do
    let _ ← watchedExecute condition alarm limits limits.nesting s
    watchedProgram condition alarm limits ss

end Offside.Run
