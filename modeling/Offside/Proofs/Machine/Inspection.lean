import Offside.Proofs.Machine.Keeping

/-!
# Runs under inspection

An inspected run looks at the machine before and behind every evaluation of an expression and every execution
of a statement, at any depth, together with the value that the program then has in hand.  A run that is the
same under inspection, whatever the alarm, is one in which the condition holds in every such state: wherever
the run comes to, whatever it stores, passes or gives back, and however its parts end.

* `Run.inspected`, `Run.ends_of_inspected` — a step under inspection, and what it means if no alarm is raised;
* `Run.inspectedProgram` — whole programs;
* `Run.keeps_inspected`, `Run.keeps_inspectedProgram` — a tidy machine passes every inspection;
* `Machine.interpret_tidy` — how a whole program leaves the machine.
-/

set_option autoImplicit false

namespace Offside

open Binding (Distance StmtsWithin declaredName?)
open Step (Ends)

/-- There is an account of all that the machine holds, and of the values in hand. -/
def Machine.Accounted (held : List Value) (m : Machine) : Prop :=
  ∃ L, m.WellFormed L ∧ ∀ v ∈ held, v.In L

/-- The value that a statement gives back. -/
def Flow.values : Flow → List Value
  | .next => []
  | .back value => [value]

namespace Run

/-! ## Inspecting -/

open Classical in
/-- A step that is inspected: `condition` must hold before it with nothing in hand, behind it with the values
that it yields, and with nothing in hand where it ends with a fault.  If not, the run ends with the alarm. -/
noncomputable def inspected {α : Type} (condition : List Value → Machine → Prop) (held : α → List Value)
    (alarm : Fault) (step : Run α) : Run α :=
  fun m =>
    if condition [] m then
      match step m with
      | .ok a m' => if condition (held a) m' then .ok a m' else .error alarm m'
      | .error e m' => if condition [] m' then .error e m' else .error alarm m'
    else .error alarm m

/-- No alarm goes unnoticed: if an inspected step does the same whatever the alarm, the condition holds before
it and behind it. -/
theorem ends_of_inspected {α : Type} {condition : List Value → Machine → Prop} {held : α → List Value}
    {p q : Run α} {m : Machine} (h : ∀ alarm, inspected condition held alarm p m = q m) :
    condition [] m ∧ Ends (q m) (fun a m' => condition (held a) m') (fun _ m' => condition [] m') := by
  have hsilent : ∀ m', ¬ ∀ alarm, q m = .error alarm m' := by
    intro m' hraised
    have hclash := (hraised .overflow).symm.trans (hraised .exhausted)
    cases hclash
  have hbefore : condition [] m := by
    by_contra hnot
    exact hsilent m fun alarm => (h alarm).symm.trans (if_neg hnot)
  refine ⟨hbefore, ?_⟩
  simp only [inspected, hbefore, if_true] at h
  cases hp : p m with
  | ok a m' =>
    simp only [hp] at h
    by_cases hbehind : condition (held a) m'
    · rw [← h .overflow, if_pos hbehind]
      exact hbehind
    · exact absurd (fun alarm => (h alarm).symm.trans (if_neg hbehind)) (hsilent m')
  | error e m' =>
    simp only [hp] at h
    by_cases hbehind : condition [] m'
    · rw [← h .overflow, if_pos hbehind]
      exact hbehind
    · exact absurd (fun alarm => (h alarm).symm.trans (if_neg hbehind)) (hsilent m')

mutual

/-- Evaluates an expression as `evaluate` does, under inspection. -/
noncomputable def inspectedEvaluate (condition : List Value → Machine → Prop) (alarm : Fault)
    (limits : Limits) : Nat → Expr Distance → Run Value
  | 0, _ => inspected condition (fun v => [v]) alarm (throw .overflow)
  | depth + 1, e => inspected condition (fun v => [v]) alarm
      (evaluateStep (inspectedEvaluate condition alarm limits depth)
        (inspectedExecute condition alarm limits depth) e)

/-- Executes a statement as `execute` does, under inspection. -/
noncomputable def inspectedExecute (condition : List Value → Machine → Prop) (alarm : Fault)
    (limits : Limits) : Nat → Stmt Distance → Run Flow
  | 0, _ => inspected condition Flow.values alarm (throw .overflow)
  | depth + 1, s => inspected condition Flow.values alarm
      (executeStep limits (inspectedEvaluate condition alarm limits depth)
        (inspectedExecute condition alarm limits depth) s)

end

/-- Executes the statements of a program as `program` does, under inspection. -/
noncomputable def inspectedProgram (condition : List Value → Machine → Prop) (alarm : Fault)
    (limits : Limits) : List (Stmt Distance) → Run Unit
  | [] => return ()
  | s :: ss => do
    let _ ← inspectedExecute condition alarm limits limits.nesting s
    inspectedProgram condition alarm limits ss

/-! ## Tidy machines pass -/

section Passing

variable {G : List String} {L : Ledger} {m : Machine}

theorem Keeps.inspected {α : Type} {p q : Run α} {post : Ledger → α → Frames Value → Prop}
    {held : α → List Value} (alarm : Fault) (hm : m.Tidy G L)
    (hheld : ∀ L' a frames, post L' a frames → ∀ v ∈ held a, v.In L') (h : Keeps G L m p q post) :
    Keeps G L m (inspected Machine.Accounted held alarm p) q post := by
  have hbefore : m.Accounted [] := ⟨L, hm.wellFormed, nofun⟩
  refine ⟨?_, h.ends⟩
  simp only [Run.inspected, hbefore, if_true, h.same]
  cases hq : q m with
  | ok a m' =>
    obtain ⟨L', hb, hpost⟩ := h.ends.value_of_ok hq
    exact if_pos ⟨L', hb.tidy.wellFormed, hheld L' a m'.frames hpost⟩
  | error e m' =>
    obtain ⟨L', hb⟩ := h.ends.fault_of_error hq
    exact if_pos ⟨L', hb.tidy.wellFormed, nofun⟩

theorem values_known {L' : Ledger} {flow : Flow} (h : flow.In L') : ∀ v ∈ flow.values, v.In L' := by
  cases flow with
  | next => exact nofun
  | back value =>
    intro v hv
    rw [List.mem_singleton.1 hv]
    exact h

/-- **Evaluation under inspection.**  At every depth, expressions are evaluated and statements executed under
inspection as they are without. -/
theorem keeps_inspected (G : List String) (alarm : Fault) (limits : Limits) (depth : Nat) :
    EvaluatesTidily G (inspectedEvaluate Machine.Accounted alarm limits depth) (evaluate limits depth) ∧
      ExecutesTidily G (inspectedExecute Machine.Accounted alarm limits depth) (execute limits depth) := by
  have hvalue : ∀ (L' : Ledger) (v : Value) (frames : Frames Value), Known L' v frames →
      ∀ u ∈ [v], u.In L' := by
    intro L' v _ hv u hu
    rw [List.mem_singleton.1 hu]
    exact hv
  induction depth with
  | zero =>
    constructor
    · intro L m e hm
      exact (keeps_throw hm .overflow).inspected alarm hm hvalue
    · intro L m n s hm _ _
      exact (keeps_throw hm .overflow).inspected alarm hm fun _ _ _ h => values_known h.1
  | succ depth ih =>
    obtain ⟨heval, hexec⟩ := ih
    constructor
    · intro L m e hm
      exact (keeps_evaluateStep heval hexec L m e hm).inspected alarm hm hvalue
    · intro L m n s hm hdeep h
      exact (keeps_executeStep limits heval hexec L m n s hm hdeep h).inspected alarm hm
        fun _ _ _ h => values_known h.1

theorem keeps_evaluate (G : List String) (limits : Limits) (depth : Nat) :
    EvaluatesTidily G (evaluate limits depth) (evaluate limits depth) := by
  intro L m e hm
  exact ⟨rfl, ((keeps_inspected G .overflow limits depth).1 L m e hm).ends⟩

theorem keeps_execute (G : List String) (limits : Limits) (depth : Nat) :
    ExecutesTidily G (execute limits depth) (execute limits depth) := by
  intro L m n s hm hdeep h
  exact ⟨rfl, ((keeps_inspected G .overflow limits depth).2 L m n s hm hdeep h).ends⟩

/-- Whole programs, at the global frame: a program that ends by itself has bound all the names that its
statements declare. -/
theorem keeps_inspectedProgram (alarm : Fault) (limits : Limits) (ss : List (Stmt Distance))
    (hm : m.Tidy G L) (hcurrent : m.current = Machine.globalFrame) (h : StmtsWithin G 0 ss) :
    Keeps G L m (inspectedProgram Machine.Accounted alarm limits ss) (program limits ss)
      fun _ _ frames => ∀ s ∈ ss, ∀ name ∈ declaredName? s, frames.Binds Machine.globalFrame name := by
  induction ss generalizing L m with
  | nil => exact .pure hm nofun
  | cons s ss ih =>
    have hexec := (keeps_inspected G alarm limits limits.nesting).2
    refine .bind (hexec L m 0 s hm hcurrent h.1) fun L₁ _ m₁ h₁ hdone => ?_
    refine (ih h₁.tidy (h₁.current.trans hcurrent) h.2.2).mono fun L₂ _ m₂ h₂ hmore => ?_
    refine List.forall_mem_cons.2 ⟨?_, hmore⟩
    intro name hname
    rw [← hcurrent]
    exact (hdone.2 name hname).grow h₂.grows

end Passing

end Run

/-! ## Whole programs -/

/-- What holds of the machine however the statements of a program end, and at the global frame as well, holds of the
machine that the program leaves. -/
theorem Machine.interpret_of_ends {P : Machine → Prop} {limits : Limits} {ss : List (Stmt Distance)} {m : Machine}
    (h : Ends (Run.program limits ss m) (fun _ m' => P m') (fun _ m' => P m'))
    (hglobal : ∀ m', P m' → P { m' with current := globalFrame }) : P (m.interpret limits ss).machine := by
  unfold interpret
  cases hrun : Run.program limits ss m with
  | ok _ after => exact h.value_of_ok hrun
  | error fault after =>
    have hafter := h.fault_of_error hrun
    cases fault with
    | overflow => exact hglobal after hafter
    | _ => exact hafter

theorem Machine.Becomes.atGlobalFrame {G : List String} {L L' : Ledger} {m m' : Machine} (h : m.Becomes G L L' m')
    (hcurrent : m.current = globalFrame) : m.Becomes G L L' { m' with current := globalFrame } :=
  ⟨h.tidy.of_eq rfl rfl rfl, h.more, h.grows, hcurrent.symm⟩

/-- However a program ends, it leaves a tidy machine at the global frame. -/
theorem Machine.interpret_tidy {G : List String} {L : Ledger} {m : Machine} (limits : Limits)
    {ss : List (Stmt Distance)} (hm : m.Tidy G L) (hcurrent : m.current = Machine.globalFrame)
    (h : StmtsWithin G 0 ss) : ∃ L', m.Becomes G L L' (m.interpret limits ss).machine := by
  have hends := (Run.keeps_inspectedProgram .overflow limits ss hm hcurrent h).ends
  exact interpret_of_ends (P := fun m' => ∃ L', m.Becomes G L L' m')
    (hends.mono (fun _ _ ⟨L', hb, _⟩ => ⟨L', hb⟩) fun _ _ hfault => hfault)
    fun _ ⟨L', hb⟩ => ⟨L', hb.atGlobalFrame hcurrent⟩

end Offside
