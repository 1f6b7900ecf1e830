import Offside.Proofs.Binding.Returns
import Offside.Proofs.Machine.Returns
import Offside.Proofs.Session.Heap

/-!
# Calls in a session

In a session of accepted texts no `return` leaves a program, every call ends with the `return` to which its body
comes, and an initializer has no value to lose: calling a class yields the new instance, and calling the
initializer of an instance yields that instance.

* `Run.endsCall_of_upheld` — how a call ends whose function returns where it may;
* `Run.CallsEnd` — every call at a node ends so;
* `Run.strictProgram` — programs whose statements must not give back a value;
* `Session.HasRun.upheld` — all functions of a session return where they may;
* `Session.run_returns` — what this comes to in a run.
-/

set_option autoImplicit false

namespace Offside

open Binding (Body Distance Node)
open Step

namespace Run

/-! ## Calls of functions that return where they may -/

section Calls

variable {limits : Limits} {depth : Nat} {f : Closure} {arguments : List Value} {m start : Machine}

theorem kind_of_isInitializer (h : f.isInitializer = true) : f.kind = .initializer := by
  rw [Closure.kind, if_pos h]

theorem eq_none_of_back {keyword : Token} {value : Option (Expr Distance)}
    (h : Rules.returning.StmtHeeds .initializer (.giveBack keyword value)) : value = none :=
  Option.isSome_eq_false_iff.1 (h.2 rfl) |> Option.isNone_iff_eq_none.1

theorem endsCall_of_upheld (limits : Limits) (depth : Nat) (hm : m.Upheld Rules.returning)
    (hf : f.Heeds Rules.returning) (hargs : ∀ v ∈ arguments, v.Heeds Rules.returning)
    (hstart : Starts f arguments m start) : EndsCall limits depth f arguments m start := by
  have hbody := (Rules.routineHeeds_iff.1 hf.code).2
  have hcall := callClosure_of_starts hstart (execute limits depth)
  refine ⟨?_, ?_, ?_, ?_, ?_⟩
  · intro hplain depth' keyword value m₁ v m₂ hcomes hv
    rw [hcall, executeAll_of_comesAll hcomes hv]
    simp only [movedTo, hplain, Bool.false_eq_true, if_false]
    rfl
  · intro hplain v m' h
    rw [hcall] at h
    cases hend : executeAll (execute limits depth) f.routine.body start with
    | error e m₁ =>
      rw [hend] at h
      cases h
    | ok flow m₁ =>
      rw [hend] at h
      simp only [movedTo, hplain, Bool.false_eq_true, if_false] at h
      cases flow with
      | next =>
        cases h
        exact Or.inr ⟨rfl, m₁, rfl⟩
      | back v' =>
        cases h
        obtain ⟨depth', t, m₂, hcomes, keyword, value, m₃, rfl, hreturn⟩ := exists_comesAll hend
        cases depth' with
        | zero => cases hreturn
        | succ depth' =>
          rw [execute_giveBack, bind_eq_ok_iff] at hreturn
          obtain ⟨v'', m₄, hv, hback⟩ := hreturn
          obtain ⟨hflow, -⟩ := ok_of_pure hback
          obtain rfl := Flow.back.inj hflow
          exact Or.inl ⟨depth', keyword, value, m₂, m₄, hcomes, hv⟩
  · intro hinit depth' keyword value m₁ hcomes
    rw [kind_of_isInitializer hinit] at hbody
    obtain rfl := eq_none_of_back (hcomes.heed hbody)
    refine ⟨rfl, ?_⟩
    have hnull : evaluate? (evaluate limits depth') none m₁ = .ok .null m₁ := rfl
    rw [hcall, executeAll_of_comesAll hcomes hnull]
    simp only [movedTo, hinit, if_true]
    rfl
  · intro hinit v m₁ hend
    rw [kind_of_isInitializer hinit] at hbody
    obtain ⟨depth', t, m₂, hcomes, keyword, value, m₃, rfl, hreturn⟩ := exists_comesAll hend
    obtain rfl := eq_none_of_back (hcomes.heed hbody)
    cases depth' with
    | zero => cases hreturn
    | succ depth' =>
      cases hreturn
      rfl
  · intro hinit this hthis v m' h
    have hupholds := upholds_callClosure (upholds_execute Rules.returning limits depth) hm hf hargs
    have hreserved : ¬ Rules.returning.name "this" := fun hname => hname.1 rfl
    exact (hupholds.ends.value_of_ok h).2.2 hinit this hreserved hthis

/-- A class that is called yields the new instance. -/
theorem eq_object_of_callClass {execute : Stmt Distance → Run Flow} {c : Class} {v : Value} {m' : Machine}
    (h : callClass execute c arguments m = .ok v m') : v = .object m.fields.size c := by
  obtain ⟨id, m₁, hid, h⟩ := ok_of_bind h
  cases hid
  cases hinit : c.initializer? with
  | none =>
    rw [hinit] at h
    exact (ok_of_pure h).1.symm
  | some method =>
    rw [hinit] at h
    obtain ⟨g, m₂, -, h⟩ := ok_of_bind h
    obtain ⟨r, m₃, -, h⟩ := ok_of_bind h
    exact (ok_of_pure h).1.symm

end Calls

/-! ## Calls at a node -/

/-- Binds the initializer of a class to a new instance of it. -/
def setUp (c : Class) (method : Closure) : Run Closure := do
  let id ← newInstance
  bindMethod method (.object id c)

/-- How the call of a value ends.  A function ends as `EndsCall` says; a class yields the new instance, and its
initializer ends so too. -/
def CallEnds (limits : Limits) (depth : Nat) (paren : Token) (arguments : List Value) (m : Machine) :
    Value → Prop
  | .function f => ∃ start, Starts f arguments m start ∧ EndsCall limits depth f arguments m start
  | .classValue c =>
    (∀ v m', call (execute limits depth) paren (.classValue c) arguments m = .ok v m' →
        v = .object m.fields.size c) ∧
      ∀ method, c.initializer? = some method → ∃ f m₁ start, setUp c method m = .ok f m₁ ∧
        Starts f arguments m₁ start ∧ EndsCall limits depth f arguments m₁ start
  | _ => True

/-- The initializer that a call takes from an instance yields that instance. -/
def YieldsInstance (limits : Limits) (depth : Nat) (paren : Token) (callee : Expr Distance) (arguments : List Value)
    (m₂ : Machine) (f : Value) (m : Machine) : Prop :=
  ∀ object field depth' id c m₁ method, callee = .getField object field → depth = depth' + 1 →
    evaluate limits depth' object m = .ok (.object id c) m₁ →
    readField? id field.lexeme m₁ = .ok none m₁ → c.findMethod? field.lexeme = some method →
    method.isInitializer = true →
    ∀ v m', call (execute limits depth) paren f arguments m₂ = .ok v m' → v = .object id c

/-- A call at the node ends as it should, whatever its callee and arguments evaluate to. -/
def CallsEnd (limits : Limits) (node : Node) (m : Machine) : Prop :=
  ∀ callee paren arguments, node = .expression (.call callee paren arguments) →
    ∀ depth f values m₁ m₂, evaluate limits depth callee m = .ok f m₁ →
      evaluateAll (evaluate limits depth) arguments m₁ = .ok values m₂ →
      CallEnds limits depth paren values m₂ f ∧ YieldsInstance limits depth paren callee values m₂ f m

section AtNodes

variable {limits : Limits} {depth : Nat} {arguments : List Value} {m : Machine}

theorem callEnds_of_upheld (limits : Limits) (depth : Nat) (paren : Token) (hm : m.Upheld Rules.returning)
    {callee : Value} (hcallee : callee.Heeds Rules.returning)
    (hargs : ∀ v ∈ arguments, v.Heeds Rules.returning) : CallEnds limits depth paren arguments m callee := by
  cases callee with
  | function f =>
    obtain ⟨start, hstart⟩ := exists_starts f arguments m
    exact ⟨start, hstart, endsCall_of_upheld limits depth hm hcallee.closure hargs hstart⟩
  | classValue c =>
    refine ⟨fun v m' h => eq_object_of_callClass h, fun method hinit => ?_⟩
    obtain ⟨f, m₁, hsetUp⟩ : ∃ f m₁, setUp c method m = .ok f m₁ := ⟨_, _, rfl⟩
    have hupholds : Upholds Rules.returning m (setUp c method) (setUp c method)
        fun f _ => f.Heeds Rules.returning := by
      refine .bind (upholds_newInstance hm) fun id m₂ h₂ hid => ?_
      have hmade : (Value.object id c).Heeds Rules.returning :=
        ⟨fun _ hid' => List.mem_singleton.1 hid' ▸ hid, hcallee.functions⟩
      exact (upholds_bindMethod h₂.upheld (hcallee.method hinit) hmade).mono fun _ _ _ hf => hf.1
    obtain ⟨hadvances, hf⟩ := hupholds.ends.value_of_ok hsetUp
    obtain ⟨start, hstart⟩ := exists_starts f arguments m₁
    exact ⟨f, m₁, start, hsetUp, hstart, endsCall_of_upheld limits depth hadvances.upheld hf hargs hstart⟩
  | _ => trivial

/-- A method that is taken from an instance is bound to it. -/
theorem function_of_getField {field : Token} {id : InstanceId} {c : Class} {method : Closure} {v : Value}
    {m₁ : Machine} (hfield : readField? id field.lexeme m = .ok none m)
    (hmethod : c.findMethod? field.lexeme = some method)
    (h : getField field (.object id c) m = .ok v m₁) :
    ∃ g, v = .function g ∧ bindMethod method (.object id c) m = .ok g m₁ := by
  rw [getField, bind_of_ok hfield] at h
  simp only [hmethod] at h
  obtain ⟨g, m₂, hg, h⟩ := ok_of_bind h
  obtain ⟨rfl, rfl⟩ := ok_of_pure h
  exact ⟨g, rfl, hg⟩

theorem callsEnd_of_upheld (limits : Limits) (node : Node) (hm : m.Upheld Rules.returning) :
    CallsEnd limits node m := by
  rintro callee paren arguments - depth f values m₁ m₂ hf hvalues
  obtain ⟨h₁, hcallee⟩ := (upholds_evaluate Rules.returning limits depth m callee hm).ends.value_of_ok hf
  obtain ⟨h₂, hargs⟩ := (upholds_evaluateAll (upholds_evaluate Rules.returning limits depth) arguments
    h₁.upheld).ends.value_of_ok hvalues
  refine ⟨callEnds_of_upheld limits depth paren h₂.upheld hcallee hargs, ?_⟩
  rintro object field depth' id c m₃ method rfl rfl hobject hfield hmethod hinit v m' hv
  obtain ⟨h₃, hinstance⟩ :=
    (upholds_evaluate Rules.returning limits depth' m object hm).ends.value_of_ok hobject
  have hget : getField field (.object id c) m₃ = .ok f m₁ := by
    rw [← hf]
    exact (bind_of_ok hobject).symm
  obtain ⟨g, rfl, hbind⟩ := function_of_getField hfield hmethod hget
  obtain ⟨-, hg, hsame, hthis⟩ := (upholds_bindMethod h₃.upheld (hinstance.class.method hmethod)
    hinstance).ends.value_of_ok hbind
  obtain ⟨start, hstart⟩ := exists_starts g values m₂
  have hreserved : ¬ Rules.returning.name "this" := fun hname => hname.1 rfl
  exact (endsCall_of_upheld limits (depth' + 1) h₂.upheld hg hargs hstart).bound (hsame.trans hinit) _
    (h₂.kept g.frame "this" _ hreserved hthis) v m' hv

end AtNodes

/-! ## Programs -/

/-- Executes the statements of a program as `program` does, and raises an alarm where one of them gives back a
value. -/
def strictProgram (alarm : Fault) (limits : Limits) : List (Stmt Distance) → Run Unit
  | [] => return ()
  | s :: ss => do
    match ← execute limits limits.nesting s with
    | .next => strictProgram alarm limits ss
    | .back _ => throw alarm

section Programs

variable {m : Machine} {ss : List (Stmt Distance)}

theorem upholds_strictProgram (alarm : Fault) (limits : Limits) (hm : m.Upheld Rules.returning)
    (h : Rules.returning.StmtsHeed .topLevel ss) :
    Upholds Rules.returning m (strictProgram alarm limits ss) (program limits ss) fun _ _ => True := by
  induction ss generalizing m with
  | nil => exact .pure hm trivial
  | cons s ss ih =>
    refine .bind (upholds_execute Rules.returning limits limits.nesting m .topLevel s hm h.1)
      fun flow m₁ h₁ hflow => ?_
    cases flow with
    | next => exact ih h₁.upheld h.2
    | back v =>
      obtain ⟨-, given, hback, -⟩ := hflow
      exact absurd rfl hback.1

theorem upholds_watchedProgram {R : Rules} {condition : Node → Machine → Prop}
    (hexpression : ∀ (e : Expr Distance) (m : Machine), m.Upheld R → condition (.expression e) m)
    (hstatement : ∀ (kind : Body) (s : Stmt Distance) (m : Machine), m.Upheld R → R.StmtHeeds kind s →
      condition (.statement s) m)
    (alarm : Fault) (limits : Limits) {kind : Body} (hm : m.Upheld R) (h : R.StmtsHeed kind ss) :
    Upholds R m (watchedProgram condition alarm limits ss) (program limits ss) fun _ _ => True := by
  induction ss generalizing m with
  | nil => exact .pure hm trivial
  | cons s ss ih =>
    have hexec := (upholds_watched hexpression hstatement alarm limits limits.nesting).2
    refine .bind (hexec m kind s hm h.1) fun _ m₁ h₁ _ => ?_
    exact ih h₁.upheld h.2

end Programs

end Run

/-! ## Machines of a session -/

namespace Machine

variable {m : Machine}

theorem Upheld.defineNative (h : m.Upheld Rules.returning) (f : Native) :
    (m.defineNative f).Upheld Rules.returning := by
  have hnative : (Value.native m.nextSerial f).Heeds Rules.returning := Value.heeds_plain rfl rfl
  have hplace : Rules.returning.place (.frame globalFrame) := trivial
  exact (h.define hplace (Or.inl f.bindable) hnative).upheld.of_eq rfl rfl trivial

theorem Upheld.fresh (time : Float) : (Machine.fresh time).Upheld Rules.returning := by
  refine Upheld.defineNative ⟨trivial, trivial, fun _ _ => trivial, fun _ _ => trivial,
    fun _ _ _ _ _ _ => trivial, ?_, ?_⟩ .clock
  · intro id frame _ hframe entry hentry
    obtain rfl : frame = ⟨[], none⟩ := by
      obtain ⟨hlt, hget⟩ := Array.getElem?_eq_some_iff.1 hframe
      obtain rfl : id = 0 := Nat.lt_one_iff.1 hlt
      exact hget.symm
    cases hentry
  · intro id bindings _ hget
    cases hget

/-- A program that is written by the rules leaves a machine that upholds them, however it ends. -/
theorem Upheld.interpret (h : m.Upheld Rules.returning) (limits : Limits) {ss : List (Stmt Distance)}
    (hss : Rules.returning.StmtsHeed .topLevel ss) : (m.interpret limits ss).machine.Upheld Rules.returning := by
  have hends := (Run.upholds_strictProgram .overflow limits h hss).ends
  exact interpret_of_ends (P := fun m' => m'.Upheld Rules.returning)
    (hends.mono (fun _ _ ⟨hcomes, _⟩ => hcomes.upheld) fun _ _ hcomes => hcomes.upheld)
    fun _ hm => hm.of_eq rfl rfl trivial

end Machine

namespace Session

variable {s : Session} {programs : List (List (Stmt Unit))}

/-- **All functions of a session return where they may**, and so do those that they make. -/
theorem HasRun.upheld (h : HasRun s programs) : s.machine.Upheld Rules.returning := by
  induction h with
  | fresh time => exact .fresh time
  | native f _ ih => exact ih.defineNative f
  | run limits source h a ih =>
    obtain ⟨L, hs⟩ := h.orderly
    rw [(run_of_accepted limits hs.log a).1]
    exact ih.interpret limits (Binding.program_returns (Program.plain_of_parsed a.parsed) a.resolved)
  | refuse limits source h hrefused ih =>
    obtain ⟨L, hs⟩ := h.orderly
    rw [Session.reset, machine_of_hasCompileError hs.log hrefused]
    exact ih
  | wait time _ ih => exact ih.of_eq rfl rfl trivial
  | reset _ ih => exact ih
  | drain _ ih => exact ih.of_eq rfl rfl trivial

/-- **No value that is returned is lost, and no `return` escapes.**  In any session that can come about, take one
more text that can run.

* Its run is the same if an alarm is raised where a statement of the program gives back a value: none does.
* Its run is the same under watch, whatever the alarm: every call, at any depth, ends as `Run.CallEnds` and
  `Run.YieldsInstance` say.  A `return` to which a body comes through blocks, branches and loops ends the call,
  in the machine that is left there, and unless the body is an initializer's, with its value; a call yields no
  other value, but null where the end of the body is reached.  A `return` to which an initializer comes has no
  value.  A class that is called yields the new instance, and an initializer the instance to which it is bound.
-/
theorem run_returns {source : String} (h : HasRun s programs) (limits : Limits)
    (a : Accepted s.machine.globals.names source) :
    (∀ alarm, Run.strictProgram alarm limits a.bound s.machine = Run.program limits a.bound s.machine) ∧
      ∀ alarm, Run.watchedProgram (Run.CallsEnd limits) alarm limits a.bound s.machine =
        Run.program limits a.bound s.machine := by
  have hcode := Binding.program_returns (Program.plain_of_parsed a.parsed) a.resolved
  constructor
  · intro alarm
    exact (Run.upholds_strictProgram alarm limits h.upheld hcode).same
  · intro alarm
    exact (Run.upholds_watchedProgram (fun e _ hm => Run.callsEnd_of_upheld limits (.expression e) hm)
      (fun _ s _ hm _ => Run.callsEnd_of_upheld limits (.statement s) hm) alarm limits h.upheld hcode).same

/-- A `return` inside a loop, a branch and a block, an initializer that returns early, and a call of it on an
instance. -/
def returnText : String :=
  "class A:\n function init(n):\n  if n:\n   return\n  print 1\n" ++
    "function f(n):\n while n:\n  if n:\n   return n\n  print 2\n print 3\nprint f(A(f).init(f))\n"

theorem run_returns_returnText :
    ∃ a : Accepted (fresh 0).machine.globals.names returnText, HasRun (fresh 0) [] ∧
      ((fresh 0).machine.interpret ⟨50, 10⟩ a.bound).machine.output = "A instance\n" ∧
      (∀ alarm, Run.strictProgram alarm ⟨50, 10⟩ a.bound (fresh 0).machine =
        Run.program ⟨50, 10⟩ a.bound (fresh 0).machine) ∧
      ∀ alarm, Run.watchedProgram (Run.CallsEnd ⟨50, 10⟩) alarm ⟨50, 10⟩ a.bound (fresh 0).machine =
        Run.program ⟨50, 10⟩ a.bound (fresh 0).machine := by
  have hprinted : ((accepted? (fresh 0).machine.globals.names returnText).map fun a =>
      ((fresh 0).machine.interpret ⟨50, 10⟩ a.bound).machine.output) = some "A instance\n" := by decide +kernel
  obtain ⟨a, -, houtput⟩ := Option.map_eq_some_iff.1 hprinted
  obtain ⟨hstrict, hwatched⟩ := run_returns (.fresh 0) ⟨50, 10⟩ a
  exact ⟨a, .fresh 0, houtput, hstrict, hwatched⟩

end Session
end Offside
