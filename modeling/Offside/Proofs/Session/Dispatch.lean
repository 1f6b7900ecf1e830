import Offside.Proofs.Machine.Dispatch
import Offside.Proofs.Session.Heap

/-!
# `super` in a session

The notes of a session go on from text to text: a class that one text declares may be inherited from in a later
one, and a function that holds a `super` may be called there.  Through all of this every `super` is explained by
what was noted before it.

* `Session.Chronicled` — the sessions that can come about, with their notes;
* `Session.Lexical`, `Session.Chronicled.lexical` — what holds of them between runs;
* `Session.super_lexical` — the main result.
-/

set_option autoImplicit false

namespace Offside

open Binding (Distance StmtsLie)

/-! ## Machines between runs -/

theorem Told.Sound.defineNative {t : Told} (h : t.Sound) (f : Native) :
    Told.Sound { t with machine := t.machine.defineNative f } := by
  have hvalue : (Value.native t.machine.nextSerial f).Placed t := trivial
  have hdefined := @Told.Sound.define t h Machine.globalFrame f.name _ (.inl f.bindable) hvalue
  exact (hdefined.sound.of_eq (m := t.machine.defineNative f) rfl rfl rfl).sound

theorem Told.sound_fresh (time : Float) : Told.Sound ⟨Machine.fresh time, []⟩ := by
  have hempty : Told.Sound ⟨⟨#[⟨[], none⟩], #[], 0, Machine.globalFrame, "", time⟩, []⟩ := by
    refine ⟨fun id frame hframe entry hentry => ?_, fun id bindings hb => ?_, fun before e m h => ?_, .nil, ?_⟩
    · have hmem : frame ∈ (#[⟨[], none⟩] : Frames Value) := Array.mem_of_getElem? hframe
      rw [Array.mem_singleton.1 hmem] at hentry
      exact absurd hentry List.not_mem_nil
    · cases hb
    · exact absurd (List.prefix_nil.1 h) (List.append_ne_nil_of_right_ne_nil _ (List.cons_ne_nil _ _))
    · exact fun _ hid => absurd hid List.not_mem_nil
  exact hempty.defineNative .clock

/-- However a program ends, the machine that it leaves is sound with the notes of the run. -/
theorem Machine.interpret_sound (limits : Limits) {t : Told} {ss : List (Stmt Distance)} (ht : t.Sound)
    (hcurrent : t.machine.current = globalFrame) (h : StmtsLie [] ss) :
    Told.Sound ⟨(t.machine.interpret limits ss).machine, (Chronicle.told (Chronicle.program limits ss t)).notes⟩ ∧
      (t.machine.interpret limits ss).machine.current = globalFrame := by
  have hends := Chronicle.places_program limits ss ht hcurrent h
  unfold Chronicle.Places at hends
  unfold Machine.interpret
  rw [← Chronicle.erases_program limits ss t]
  cases hrun : Chronicle.program limits ss t with
  | ok _ t' =>
    obtain ⟨hl, -⟩ := hends.value_of_ok hrun
    exact ⟨hl.sound, hl.current.trans hcurrent⟩
  | error fault t' =>
    have hl := hends.fault_of_error hrun
    cases fault with
    | overflow => exact ⟨(hl.sound.move globalFrame).1, rfl⟩
    | _ => exact ⟨hl.sound, hl.current.trans hcurrent⟩

theorem Accepted.stmtsLie {known : List String} {source : String} (a : Accepted known source) :
    StmtsLie [] a.bound :=
  Binding.program_lies (Program.plain_of_parsed a.parsed) a.resolved

namespace Session

/-! ## Sessions with their notes -/

/-- The notes behind a program that is run on the machine of the session. -/
def notesBehind (s : Session) (notes : List Note) (limits : Limits) (bound : List (Stmt Distance)) : List Note :=
  (Chronicle.told (Chronicle.program limits bound ⟨s.machine, notes⟩)).notes

/-- The sessions that can come about, and what was noted.  Notes are taken while a text runs. -/
inductive Chronicled : Session → List Note → Prop
  | fresh (time : Float) : Chronicled (Session.fresh time) []
  | native {s : Session} {notes : List Note} (f : Native) (h : Chronicled s notes) :
      Chronicled (s.defineNative f) notes
  | run {s : Session} {notes : List Note} (limits : Limits) (source : String) (h : Chronicled s notes)
      (a : Accepted s.machine.globals.names source) :
      Chronicled (s.run limits source).session (s.notesBehind notes limits a.bound)
  | refuse {s : Session} {notes : List Note} (limits : Limits) (source : String) (h : Chronicled s notes)
      (hrefused : (s.run limits source).session.log.hasCompileError = true) :
      Chronicled (s.run limits source).session.reset notes
  | wait {s : Session} {notes : List Note} (time : Float) (h : Chronicled s notes) :
      Chronicled { s with machine := { s.machine with time := time } } notes
  | reset {s : Session} {notes : List Note} (h : Chronicled s notes) : Chronicled s.reset notes
  | drain {s : Session} {notes : List Note} (h : Chronicled s notes) : Chronicled s.drain notes

/-- What holds of a session and its notes between runs. -/
structure Lexical (s : Session) (notes : List Note) : Prop where
  sound : Told.Sound ⟨s.machine, notes⟩
  current : s.machine.current = Machine.globalFrame
  log : s.log.hasCompileError = false

variable {s : Session} {notes : List Note} {source : String}

/-- Only the heap and the current frame matter. -/
theorem Lexical.of_eq {s' : Session} (h : s.Lexical notes) (hframes : s'.machine.frames = s.machine.frames)
    (hfields : s'.machine.fields = s.machine.fields) (hcurrent : s'.machine.current = s.machine.current)
    (hlog : s'.log.hasCompileError = false) : s'.Lexical notes :=
  ⟨(h.sound.of_eq (m := s'.machine) hframes hfields hcurrent).sound, hcurrent.trans h.current, hlog⟩

theorem Lexical.run (h : s.Lexical notes) (limits : Limits) (a : Accepted s.machine.globals.names source) :
    (s.run limits source).session.Lexical (s.notesBehind notes limits a.bound) := by
  rw [(run_of_accepted limits h.log a).1]
  obtain ⟨hsound, hcurrent⟩ := Machine.interpret_sound limits h.sound h.current a.stmtsLie
  exact ⟨hsound, hcurrent, hasCompileError_interpret limits h.log _ _⟩

theorem Chronicled.lexical (h : Chronicled s notes) : s.Lexical notes := by
  induction h with
  | fresh time => exact ⟨Told.sound_fresh time, rfl, rfl⟩
  | native f _ ih => exact ⟨ih.sound.defineNative f, ih.current, ih.log⟩
  | run limits source _ a ih => exact ih.run limits a
  | refuse limits source _ hrefused ih =>
    have hmachine := machine_of_hasCompileError ih.log hrefused
    exact ih.of_eq (congrArg Machine.frames hmachine) (congrArg Machine.fields hmachine)
      (congrArg Machine.current hmachine) rfl
  | wait time _ ih => exact ih.of_eq rfl rfl rfl ih.log
  | reset _ ih => exact ih.of_eq rfl rfl rfl rfl
  | drain _ ih => exact ih.of_eq rfl rfl rfl ih.log

/-! ## Every `super` of a run -/

/-- **`super` is lexical.**  In any session that can come about, take one more text that can run, and take notes.

* The run with notes does what the run does, and the session goes on from the machine that it leaves.
* Notes are only added, and each tells of a frame of its own: no two executions of a declaration, bound methods
  or calls have the same frame.
* Whenever a `super` is evaluated, on a machine `m`, what was noted before explains it, as `Dispatch.Explains`
  spells out.  It stands in a method of a class declaration, and in none inside of it.  The frames around it are
  those of a call of this method, of the instance to which it was bound, and of an execution of the declaration.
  The lookup starts at the class that the variable of the superclass held on the machine `start` on which the
  declaration was executed; it yields the method of the first class of the chain that has one, bound to that
  instance, and fails exactly if none of them has one. -/
theorem super_lexical (h : Chronicled s notes) (limits : Limits) (a : Accepted s.machine.globals.names source) :
    Chronicle.erased (Chronicle.program limits a.bound ⟨s.machine, notes⟩) =
        Run.program limits a.bound s.machine ∧
      (s.run limits source).session.machine = (s.machine.interpret limits a.bound).machine ∧
      notes <+: s.notesBehind notes limits a.bound ∧
      ((s.notesBehind notes limits a.bound).filterMap Note.frame?).Nodup ∧
      ∀ before e m, before ++ [.sent e m] <+: s.notesBehind notes limits a.bound →
        ∃ d : Dispatch, d.Explains before e m := by
  have hs := h.lexical
  have hbehind := (hs.run limits a).sound
  refine ⟨Chronicle.erases_program limits a.bound _, ?_, ?_, ?_, hbehind.sent⟩
  · rw [(run_of_accepted limits hs.log a).1]
  · have hends := Chronicle.places_program limits a.bound hs.sound hs.current a.stmtsLie
    unfold Chronicle.Places at hends
    unfold notesBehind
    cases hrun : Chronicle.program limits a.bound ⟨s.machine, notes⟩ with
    | ok _ t' => exact (hends.value_of_ok hrun).1.grows.notes
    | error fault t' => exact (hends.fault_of_error hrun).grows.notes
  · exact hbehind.order.imp Nat.ne_of_lt

/-- A function made in a method of `B` holds a `super`.  It is called after `A` has another value, and its
instance is one of `C`. -/
def laterText : String :=
  "class A:\n function m():\n  return this\nclass B :: A:\n function m():\n  function k():\n" ++
    "   return super.m()\n  return k\nclass C :: B:\n function n():\n  print 0\nset f to C().m()\n" ++
    "set A to 0\nprint f()\n"

theorem super_lexical_laterText :
    ∃ (a : Accepted (fresh 0).machine.globals.names laterText) (before : List Note) (e : Expr Distance)
      (m : Machine) (d : Dispatch), ((fresh 0).run ⟨50, 10⟩ laterText).session.machine.output = "C instance\n" ∧
      before ++ [.sent e m] <+: (fresh 0).notesBehind [] ⟨50, 10⟩ a.bound ∧ d.Explains before e m := by
  have hruns : (accepted? (fresh 0).machine.globals.names laterText).any (fun a =>
      ((fresh 0).machine.interpret ⟨50, 10⟩ a.bound).machine.output == "C instance\n" &&
        ((fresh 0).notesBehind [] ⟨50, 10⟩ a.bound).any Note.isSent) = true := by decide +kernel
  obtain ⟨a, -, ha⟩ := (Option.any_eq_true _ _).1 hruns
  obtain ⟨houtput, hsent⟩ := Bool.and_eq_true_iff.1 ha
  obtain ⟨-, hmachine, -, -, hexplained⟩ := super_lexical (.fresh 0) ⟨50, 10⟩ a
  obtain ⟨n, hn, hkind⟩ := List.any_eq_true.1 hsent
  obtain ⟨before, behind, hnotes⟩ := List.append_of_mem hn
  cases n with
  | sent e m =>
    have hprefix : before ++ [.sent e m] <+: (fresh 0).notesBehind [] ⟨50, 10⟩ a.bound :=
      ⟨behind, by rw [hnotes, List.append_assoc]; rfl⟩
    obtain ⟨d, hd⟩ := hexplained before e m hprefix
    exact ⟨a, before, e, m, d, by rw [hmachine]; exact beq_iff_eq.1 houtput, hprefix, hd⟩
  | _ => cases hkind

end Session
end Offside
