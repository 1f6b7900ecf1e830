import Offside.Proofs.Machine.Assignments
import Offside.Proofs.Session.Returns

/-!
# What is set in a session

In a session of accepted texts a value that is set is what the next statement reads: at the top level, in blocks, and
in the bodies of functions and methods, whichever text they stem from.

* `Run.Begins` — the bodies that a call begins to execute;
* `Run.SetsSeen`, `Run.ProgramSeen` — what is set is seen, in the lists of statements at a node and at the top level;
* `Session.run_sees` — so it is in every run.
-/

set_option autoImplicit false

namespace Offside

open Binding (Distance Node StmtWithin StmtsWithin)
open Step

namespace Run

/-! ## Lists of statements at a node -/

/-- Calling the value in the machine `m` begins to execute the body of the function `f` in the machine `start`: that of
the function itself, or that of the initializer of a class. -/
inductive Begins (arguments : List Value) : Value → Machine → Closure → Machine → Prop
  | function {f : Closure} {m start : Machine} (h : Starts f arguments m start) :
      Begins arguments (.function f) m f start
  | initializer {c : Class} {method f : Closure} {m m₁ start : Machine} (hinit : c.initializer? = some method)
      (hbound : setUp c method m = .ok f m₁) (h : Starts f arguments m₁ start) :
      Begins arguments (.classValue c) m f start

/-- What is set is seen in the list of statements that a node executes: the body of a block, or that of the function
that a call ends up with, whatever its callee and arguments evaluate to. -/
def SetsSeen (limits : Limits) (node : Node) (m : Machine) : Prop :=
  (∀ body, node = .statement (.block body) → ∀ depth, AllSeen limits depth body (m.inside m.current)) ∧
  ∀ callee paren arguments, node = .expression (.call callee paren arguments) →
    ∀ depth depth' called values m₁ m₂ f start, evaluate limits depth callee m = .ok called m₁ →
      evaluateAll (evaluate limits depth) arguments m₁ = .ok values m₂ → Begins values called m₂ f start →
      AllSeen limits depth' f.routine.body start

/-- What is set at the top level of a program is seen. -/
def ProgramSeen (limits : Limits) (ss : List (Stmt Distance)) (m : Machine) : Prop :=
  ∀ before name value site next after m', ss = before ++ .assign name value site :: next :: after →
    program limits before m = .ok () m' → ∀ depth, limits.nesting = depth + 1 →
      SeenBy limits depth name value site next m'

variable {G : List String} {L : Ledger} {limits : Limits} {n : Nat} {m : Machine}

theorem keeps_setUp {c : Class} {method : Closure} (hm : m.Tidy G L) (hc : (Value.classValue c).In L)
    (hinit : c.initializer? = some method) :
    Keeps G L m (setUp c method) (setUp c method) fun L' f _ => (Value.function f).In L' := by
  refine .bind (keeps_newInstance hm hc) fun L₁ id m₁ h₁ hmade => ?_
  have hmethod := h₁.tidy.method_of_findMethod? (hc.mono h₁.more) hinit
  exact keeps_bindMethod h₁.tidy hmethod hmade (Value.suits_object id c)

theorem allSeen_of_begins (limits : Limits) (depth : Nat) {called : Value} {values : List Value} {f : Closure}
    {start : Machine} (hm : m.Tidy G L) (hcalled : called.In L) (hvalues : ∀ v ∈ values, v.In L)
    (h : Begins values called m f start) : AllSeen limits depth f.routine.body start := by
  cases h with
  | function h => exact allSeen_of_starts limits depth hm hcalled hvalues h
  | initializer hinit hbound h =>
    obtain ⟨L₁, h₁, hf⟩ := (keeps_setUp hm hcalled hinit).ends.value_of_ok hbound
    exact allSeen_of_starts limits depth h₁.tidy hf (fun v hv => (hvalues v hv).mono h₁.more) h

theorem setsSeen_expression (limits : Limits) (hm : m.Tidy G L) (e : Expr Distance) :
    SetsSeen limits (.expression e) m := by
  constructor
  · rintro body ⟨⟩
  · rintro callee paren arguments ⟨⟩ depth depth' called values m₁ m₂ f start hcallee hvalues hbegins
    obtain ⟨L₁, h₁, hcalled⟩ := (keeps_evaluate G limits depth L m callee hm).ends.value_of_ok hcallee
    obtain ⟨L₂, h₂, hargs⟩ :=
      (keeps_evaluateAll (keeps_evaluate G limits depth) arguments h₁.tidy).ends.value_of_ok hvalues
    exact allSeen_of_begins limits depth' h₂.tidy (hcalled.mono h₂.more) hargs hbegins

theorem setsSeen_statement (limits : Limits) (hm : m.Tidy G L) (hdeep : m.frames.Deep m.current n)
    {s : Stmt Distance} (h : StmtWithin G n s) : SetsSeen limits (.statement s) m := by
  constructor
  · rintro body ⟨⟩ depth
    have hadded := hm.add (hdeep.lt hm.top_lt)
    exact allSeen_of_within limits depth (hadded.of_eq rfl rfl rfl) hdeep.add h
  · rintro callee paren arguments ⟨⟩

theorem programSeen_of_within (limits : Limits) {ss : List (Stmt Distance)} (hm : m.Tidy G L)
    (hcurrent : m.current = Machine.globalFrame) (h : StmtsWithin G 0 ss) : ProgramSeen limits ss m := by
  rintro before name value site next after m' rfl hbefore depth -
  obtain ⟨hfront, hpair⟩ := h.of_append
  obtain ⟨L', h', -⟩ :=
    (keeps_inspectedProgram .overflow limits before hm hcurrent hfront).ends.value_of_ok hbefore
  have hdeep : m'.frames.Deep m'.current 0 := h'.current.trans hcurrent
  exact seenBy_of_within limits depth h'.tidy hdeep hpair

end Run

namespace Session

variable {s : Session} {programs : List (List (Stmt Unit))}

/-- **A value that is set is seen by the next read.**  In any session that can come about, take one more text that can
run, and in it, or in a function that the session holds, a `set` with a statement directly behind it.

* At the top level, whenever the `set` is come to and its value is evaluated without an error, the `set` goes on to the
  next statement.  If this begins by reading the same name, as `Run.execute_of_unread` says, it reads that value:
  wherever the walk put the `set`, and whatever evaluating the value has called and set.
* Its run is the same under watch, whatever the alarm: the same holds in every block that is executed and in the body
  of every function, method and initializer that is called, at any depth. -/
theorem run_sees {source : String} (h : HasRun s programs) (limits : Limits)
    (a : Accepted s.machine.globals.names source) :
    Run.ProgramSeen limits a.bound s.machine ∧
      ∀ alarm, Run.watchedProgram (Run.SetsSeen limits) alarm limits a.bound s.machine =
        Run.program limits a.bound s.machine := by
  obtain ⟨L, hs⟩ := h.orderly
  obtain ⟨htidy, hwithin⟩ := hs.ready (Program.plain_of_parsed a.parsed) a.resolved
  constructor
  · exact Run.programSeen_of_within limits htidy hs.current hwithin
  · intro alarm
    exact (Run.keeps_watchedProgram (fun _ _ e hm => Run.setsSeen_expression limits hm e)
      (fun _ _ _ _ hm hdeep hs => Run.setsSeen_statement limits hm hdeep hs) alarm limits a.bound htidy hs.current
      hwithin).same

/-- A global name that the function sets which is called for its value, set at the top level and in a block, and a name
of the block. -/
def settingText : String :=
  "set x to 1\nfunction f():\n set x to 5\n return 2\nset x to f()\nprint x\n" ++
    ":\n set y to f()\n print y + x\n set x to y\n print x\n"

theorem run_sees_settingText :
    ∃ a : Accepted (fresh 0).machine.globals.names settingText, HasRun (fresh 0) [] ∧
      (a.bound.map fun s => s.firstRead?.map fun r => r.token.lexeme) = [none, none, some "f", some "x", some "f"] ∧
      ((fresh 0).machine.interpret ⟨50, 10⟩ a.bound).machine.output = "2\n7\n2\n" ∧
      Run.ProgramSeen ⟨50, 10⟩ a.bound (fresh 0).machine ∧
      ∀ alarm, Run.watchedProgram (Run.SetsSeen ⟨50, 10⟩) alarm ⟨50, 10⟩ a.bound (fresh 0).machine =
        Run.program ⟨50, 10⟩ a.bound (fresh 0).machine := by
  have hran : ((accepted? (fresh 0).machine.globals.names settingText).map fun a =>
      (a.bound.map fun s => s.firstRead?.map fun r => r.token.lexeme,
        ((fresh 0).machine.interpret ⟨50, 10⟩ a.bound).machine.output)) =
      some ([none, none, some "f", some "x", some "f"], "2\n7\n2\n") := by decide +kernel
  obtain ⟨a, -, ha⟩ := Option.map_eq_some_iff.1 hran
  obtain ⟨hreads, houtput⟩ := Prod.mk.inj ha
  obtain ⟨hprogram, hwatched⟩ := run_sees (.fresh 0) ⟨50, 10⟩ a
  exact ⟨a, .fresh 0, hreads, houtput, hprogram, hwatched⟩

end Session
end Offside
