import Offside.Proofs.Machine.Mirror
import Offside.Proofs.Machine.Upholding
import Offside.Session

/-!
# The current frame is restored

Whatever is evaluated or executed, and however that ends, the machine comes back to the frame from which it
started: trees need not have been read or bound, and the machine may be in any state.  So between runs the
machine is at its global frame, also behind a run that was stopped.

Blocks and calls come back in `Run.inFrame`.  A class declaration closes its methods over a frame that it
never makes the current one; a declaration that enters this frame and leaves it by its link does the same.

* `Run.defineClassInside` — a class declaration that enters the frame of its methods;
* `Machine.interpretAll`, `Session.runAll` — programs and texts run one after the other;
* `Session.current_restored` — the main result.
-/

set_option autoImplicit false

namespace Offside

open Binding (Distance)
open Step

/-! ## Class declarations that enter the frame of their methods -/

namespace Run

/-- Makes a frame the current one. -/
def goTo (frame : FrameId) : Run Unit :=
  fun m => .ok () { m with current := frame }

/-- Goes to the frame that encloses the current one. -/
def leave : Run Unit :=
  fun m =>
    match m.frames[m.current]?.bind Frame.enclosing with
    | some outer => .ok () { m with current := outer }
    | none => .error .missingFrame m

/-- Enters a frame that binds `super`, if there is a superclass. -/
def enterMethodFrame : Option Class → Run Unit
  | none => return ()
  | some c => do
    goTo (← newFrame (← currentFrame))
    define "super" (.classValue c)

/-- Leaves this frame again, if it was entered. -/
def leaveMethodFrame : Option Class → Run Unit
  | none => return ()
  | some _ => leave

/-- Declares a class whose methods are made in the frame over which they are closed; this frame is left by its
link to the frame around it. -/
def defineClassInside (evaluate : Expr Distance → Run Value) (name : Token)
    (parent : Option (Token × Distance)) (methods : List (Routine Distance)) : Run Unit := do
  let parentClass ← superclassOf parent evaluate
  define name.lexeme .null
  enterMethodFrame parentClass
  let table ← makeMethods (← currentFrame) methods []
  let serial ← newSerial
  leaveMethodFrame parentClass
  let ancestors := match parentClass with
    | none => []
    | some c => c.lineage
  define name.lexeme (.classValue ⟨⟨serial, name.lexeme, table⟩, ancestors⟩)

/-- The methods of a class whose serial numbers start at a given one. -/
def methodTable (frame : FrameId) : Nat → List (Routine Distance) → Bindings Closure → Bindings Closure
  | _, [], methods => methods
  | serial, r :: rs, methods =>
    methodTable frame (serial + 1) rs (methods.put r.name.lexeme ⟨serial, r, frame, r.isInitializer⟩)

/-- Making methods takes serials and changes nothing else. -/
theorem makeMethods_apply (frame : FrameId) (rs : List (Routine Distance)) (methods : Bindings Closure)
    (m : Machine) : makeMethods frame rs methods m =
      .ok (methodTable frame m.nextSerial rs methods) { m with nextSerial := m.nextSerial + rs.length } := by
  induction rs generalizing methods m with
  | nil => rfl
  | cons r rs ih =>
    have hserial : newSerial m = .ok m.nextSerial { m with nextSerial := m.nextSerial + 1 } := rfl
    rw [makeMethods, bind_of_ok hserial, ih]
    simp only [methodTable, List.length_cons, Nat.add_assoc, Nat.add_comm 1]

/-- Both ways to declare a class come to the same. -/
theorem defineClassInside_eq (evaluate : Expr Distance → Run Value) (name : Token)
    (parent : Option (Token × Distance)) (methods : List (Routine Distance)) :
    defineClassInside evaluate name parent methods = defineClass evaluate name parent methods := by
  funext m
  refine bind_congr rfl fun parentClass m₁ _ => ?_
  refine bind_congr rfl fun _ m₂ _ => ?_
  cases parentClass with
  | none => rfl
  | some c =>
    let added : Machine := { m₂ with
      frames := (m₂.frames.add (some m₂.current)).define m₂.frames.size "super" (.classValue c) }
    have henter : enterMethodFrame (some c) m₂ = .ok () { added with current := m₂.frames.size } := rfl
    have hframe : methodFrame (some c) m₂ = .ok m₂.frames.size added := rfl
    rw [bind_of_ok henter, bind_of_ok hframe]
    refine (bind_of_ok (makeMethods_apply _ _ _ _)).trans (Eq.symm ?_)
    refine (bind_of_ok (makeMethods_apply _ _ _ _)).trans ?_
    -- the frame that is left was added from the frame at which the declaration stands
    have hlink : added.frames[m₂.frames.size]? = some ⟨[("super", .classValue c)], some m₂.current⟩ :=
      Frames.getElem?_define_self (Frames.getElem?_add_size _ _) _ _
    have hleave : leaveMethodFrame (some c) { added with
          current := m₂.frames.size
          nextSerial := m₂.nextSerial + methods.length + 1 } =
        .ok () { added with nextSerial := m₂.nextSerial + methods.length + 1 } := by
      simp only [leaveMethodFrame, leave, hlink, Option.bind_some]
      rfl
    exact (bind_of_ok (f := fun _ => define name.lexeme _) hleave).symm

end Run

/-! ## Evaluation and execution -/

namespace Run

variable (limits : Limits) (depth : Nat) (m : Machine)

/-- The machine is at the frame at which it was. -/
def Restores {α : Type} (r : EStateM.Result Fault Machine α) : Prop :=
  Ends r (fun _ m' => m'.current = m.current) (fun _ m' => m'.current = m.current)

theorem Upholds.restores {R : Rules} {α : Type} {p q : Run α} {post : α → Machine → Prop}
    (h : Upholds R m p q post) : Restores m (q m) :=
  h.ends.mono (fun _ _ hvalue => hvalue.1.current) (fun _ _ hfault => hfault.current)

theorem restores_evaluate (e : Expr Distance) : Restores m (evaluate limits depth e m) :=
  (upholds_evaluate Rules.free limits depth m e m.upheld_free).restores

theorem restores_execute (s : Stmt Distance) : Restores m (execute limits depth s m) :=
  (upholds_execute Rules.free limits depth m .topLevel s m.upheld_free (Rules.liberal_free.stmt _ _)).restores

theorem restores_program (statements : List (Stmt Distance)) : Restores m (program limits statements m) := by
  induction statements generalizing m with
  | nil => exact rfl
  | cons s ss ih =>
    refine Ends.bind (restores_execute limits limits.nesting m s) fun _ m₁ h₁ => ?_
    exact (ih m₁).mono (fun _ _ h => h.trans h₁) (fun _ _ h => h.trans h₁)

end Run

/-! ## Programs and texts one after the other -/

namespace Machine

/-- A run comes back to the frame from which it started, or it has overflowed and is at the global frame. -/
theorem current_interpret (limits : Limits) (statements : List (Stmt Distance)) (m : Machine) :
    (m.interpret limits statements).machine.current = m.current ∨
      (m.interpret limits statements).machine.current = globalFrame := by
  have h := Run.restores_program limits m statements
  unfold interpret
  split <;> rename_i hrun
  · exact .inl (h.value_of_ok hrun)
  · exact .inl (h.fault_of_error hrun)
  · exact .inr rfl
  · exact .inl (h.fault_of_error hrun)

/-- Runs programs one after the other, each within its own bounds, whatever becomes of those before it. -/
def interpretAll : List (Limits × List (Stmt Distance)) → Machine → Machine
  | [], m => m
  | (limits, statements) :: more, m => interpretAll more (m.interpret limits statements).machine

theorem current_interpretAll (programs : List (Limits × List (Stmt Distance))) {m : Machine}
    (hm : m.current = globalFrame) : (m.interpretAll programs).current = globalFrame := by
  induction programs generalizing m with
  | nil => exact hm
  | cons program more ih =>
    refine ih ?_
    rcases current_interpret program.1 program.2 m with h | h
    · exact h.trans hm
    · exact h

end Machine

namespace Session

/-- Runs texts one after the other, each within its own bounds; problems in a text are forgotten before the
next one. -/
def runAll : List (Limits × String) → Session → Session
  | [], s => s
  | (limits, text) :: more, s => runAll more (s.run limits text).session.reset

theorem current_advance (limits : Limits) (s : Session) (stage : Stage) :
    (s.advance limits stage).1.machine.current = s.machine.current ∨
      (s.advance limits stage).1.machine.current = Machine.globalFrame := by
  cases stage with
  | source text => exact .inl rfl
  | tokens stream => exact .inl rfl
  | tree stream statements =>
    refine .inl ?_
    simp only [advance]
    split <;> rfl
  | bound statements => exact Machine.current_interpret limits statements s.machine

theorem current_runFrom (limits : Limits) (fuel : Nat) {s : Session} (stage : Stage)
    (hs : s.machine.current = Machine.globalFrame) :
    (runFrom limits fuel s stage).session.machine.current = Machine.globalFrame := by
  induction fuel generalizing s stage with
  | zero => exact hs
  | succ fuel ih =>
    have hafter : (s.advance limits stage).1.machine.current = Machine.globalFrame := by
      rcases current_advance limits s stage with h | h
      · exact h.trans hs
      · exact h
    unfold runFrom
    split <;> rename_i hadvance <;> rw [hadvance] at hafter
    · exact ih _ hafter
    · exact hafter
    · exact hafter

theorem current_runAll (texts : List (Limits × String)) {s : Session}
    (hs : s.machine.current = Machine.globalFrame) : (s.runAll texts).machine.current = Machine.globalFrame := by
  induction texts generalizing s with
  | nil => exact hs
  | cons text more ih => exact ih (current_runFrom text.1 4 (.source text.2) hs)

/-- **The current frame is restored.**

* Every expression and every statement, in any machine and however its evaluation or execution ends, leaves
  the machine at the frame at which it was; so does a class declaration that enters the frame of its methods
  and leaves it by its link, which is the same step.
* A machine that is at its global frame is there again behind any programs, and a session behind any texts,
  however each of them ended.
-/
theorem current_restored (limits : Limits) :
    (∀ (depth : Nat) (m : Machine),
      (∀ e, Run.Restores m (Run.evaluate limits depth e m)) ∧
      (∀ s, Run.Restores m (Run.execute limits depth s m))) ∧
    (∀ evaluate name parent methods,
      Run.defineClassInside evaluate name parent methods = Run.defineClass evaluate name parent methods) ∧
    (∀ m : Machine, m.current = Machine.globalFrame →
      ∀ programs, (m.interpretAll programs).current = Machine.globalFrame) ∧
    (∀ s : Session, s.machine.current = Machine.globalFrame →
      ∀ texts, (s.runAll texts).machine.current = Machine.globalFrame) := by
  refine ⟨fun depth m => ⟨?_, ?_⟩, Run.defineClassInside_eq, ?_, ?_⟩
  · exact Run.restores_evaluate limits depth m
  · exact Run.restores_execute limits depth m
  · intro m hm programs
    exact Machine.current_interpretAll programs hm
  · intro s hs texts
    exact current_runAll texts hs

/-- A text whose run overflows. -/
def endlessText : String :=
  "function f():\n return f()\nf()\n"

/-- A text whose run is stopped by an error inside a method. -/
def stoppedText : String :=
  "class A:\n function m():\n  return boom\nA().m()\n"

/-- Behind both of them, and behind a block that holds a node of unknown kind, the machine is at its global
frame. -/
theorem current_restored_stopped :
    ((fresh 0).run ⟨20, 10⟩ endlessText).session.log.map Report.text = ["Stack overflow."] ∧
      ((fresh 0).runAll [(⟨20, 10⟩, endlessText), (⟨50, 10⟩, stoppedText)]).machine.current =
        Machine.globalFrame ∧
      ((Machine.fresh 0).interpret ⟨20, 10⟩ [.block [.unknown]]).escaped = some (.unknown .statement) ∧
      ((Machine.fresh 0).interpretAll [(⟨20, 10⟩, [.block [.unknown]])]).current = Machine.globalFrame := by
  obtain ⟨-, -, hprograms, htexts⟩ := current_restored Limits.standard
  refine ⟨by decide +kernel, htexts (fresh 0) rfl _, by decide +kernel, hprograms (Machine.fresh 0) rfl _⟩

end Session
end Offside
