import Offside.Proofs.Machine.Nesting
import Offside.Proofs.Session.Heap

/-!
# Programs with nested `else if`

A program means the same with every `else if` put into an `else` block of its own: it is bound alike, prints the
same, reports the same, and leaves global names bound to the same values, up to the frames of functions.

* `Machine.Whole` — machines in which every frame that is referred to is there; `Session.HasRun.whole`;
* `Machine.Whole.alike` — such a machine is like itself;
* `Machine.interpret_nested` — running a program and the nested one.
-/

set_option autoImplicit false

namespace Offside

open Binding (Distance)

namespace Machine

/-! ## Machines without loose ends -/

/-- Every frame that the machine refers to is there. -/
structure Whole (m : Machine) : Prop where
  current : m.current < m.frames.size
  global : globalFrame < m.frames.size
  enclosing : ∀ (id : FrameId) (frame : Frame Value), m.frames[id]? = some frame →
    ∀ outer ∈ frame.enclosing, outer < m.frames.size
  bindings : ∀ (id : FrameId) (frame : Frame Value) (name : String) (v : Value), m.frames[id]? = some frame →
    frame.bindings.get? name = some v → v.LivesIn m.frames.size
  fields : ∀ (id : InstanceId) (bindings : Bindings Value) (name : String) (v : Value),
    m.fields[id]? = some bindings → bindings.get? name = some v → v.LivesIn m.frames.size

section Tidy

variable {G : List String} {L : Ledger} {m : Machine}

theorem Tidy.lt_of_within (h : m.Tidy G L) {extra : Nat} {f : Closure} (hf : f.Within G m.frames extra) :
    f.frame < m.frames.size := by
  obtain ⟨n, hdeep, -⟩ := hf
  exact hdeep.lt h.top_lt

theorem Tidy.class_livesIn (h : m.Tidy G L) {c : Class} (hc : (Value.classValue c).In L) :
    c.LivesIn m.frames.size := by
  intro l hl name f hf
  have hmethod := h.cells _ _ (h.method_of_lineage hc hl hf)
  exact h.lt_of_within hmethod.2

theorem Tidy.livesIn (h : m.Tidy G L) {v : Value} (hv : v.In L) : v.LivesIn m.frames.size := by
  cases v with
  | function f => exact h.lt_of_within (h.within_of_function hv)
  | classValue c => exact h.class_livesIn hv
  | object id c => exact h.class_livesIn (h.classes id c hv)
  | _ => trivial

theorem Tidy.whole (h : m.Tidy G L) (hcurrent : m.current = globalFrame) : m.Whole where
  current := by
    rw [hcurrent]
    exact h.top_lt
  global := h.top_lt
  enclosing id frame hframe outer houter := by
    by_cases hid : id = globalFrame
    · obtain ⟨top, htop, hnone⟩ := h.top
      rw [hid, htop] at hframe
      rw [← Option.some.inj hframe, hnone] at houter
      cases houter
    · obtain ⟨link, hlink, hlt⟩ := h.enclosed id frame hframe hid
      rw [hlink] at houter
      have hsize := (Array.getElem?_eq_some_iff.1 hframe).1
      exact Option.some.inj houter ▸ Nat.lt_trans hlt hsize
  bindings id frame name v hframe hv := h.livesIn (h.bound id frame name v hframe hv).1
  fields id bindings name v hb hv := h.livesIn (h.fields id bindings name v hb hv)

end Tidy

/-- **A machine is like itself**, every frame being its own counterpart. -/
theorem Whole.alike {m : Machine} (h : m.Whole) :
    m.Alike ((List.range m.frames.size).map fun id => ⟨[], id, id⟩) m := by
  have hself : ∀ id < m.frames.size, (⟨[], id, id⟩ : Counterpart) ∈
      (List.range m.frames.size).map fun id => ⟨[], id, id⟩ :=
    fun id hid => List.mem_map.2 ⟨id, List.mem_range.2 hid, rfl⟩
  refine ⟨rfl, rfl, rfl, rfl, ?_, ?_, ?_, ?_, hself _ h.global⟩
  · intro id
    cases hb : m.fields[id]? with
    | none => exact .none
    | some b => exact .some (Bindings.alike_self fun name v hv => Value.alike_self hself (h.fields id b name v hb hv))
  · intro x hx
    obtain ⟨id, hid, rfl⟩ := List.mem_map.1 hx
    obtain ⟨frame, hframe⟩ : ∃ frame, m.frames[id]? = some frame :=
      ⟨_, Array.getElem?_eq_getElem (List.mem_range.1 hid)⟩
    refine .shared Binding.shared_nil hframe hframe
      (Bindings.alike_self fun name v hv => Value.alike_self hself (h.bindings id frame name v hframe hv)) ?_
    cases ho : frame.enclosing with
    | none => exact .none
    | some o => exact .some (hself o (h.enclosing id frame hframe o ho))
  · intro x hx y hy he
    obtain ⟨id, -, rfl⟩ := List.mem_map.1 hx
    obtain ⟨id', -, rfl⟩ := List.mem_map.1 hy
    obtain rfl : id = id' := he
    rfl
  · intro x hx y hy _ _ he
    obtain ⟨id, -, rfl⟩ := List.mem_map.1 hx
    obtain ⟨id', -, rfl⟩ := List.mem_map.1 hy
    obtain rfl : id = id' := he
    rfl

end Machine

/-- In a session that can come about every frame that is referred to is there. -/
theorem Session.HasRun.whole {s : Session} {programs : List (List (Stmt Unit))} (h : Session.HasRun s programs) :
    s.machine.Whole := by
  obtain ⟨L, hs⟩ := h.orderly
  exact hs.tidy.whole hs.current

/-! ## Running the nested program -/

namespace Machine

/-- The nesting of the program exceeds its limit. -/
def Overflows (limits : Limits) (program : List (Stmt Distance)) (m : Machine) : Prop :=
  Run.Overflows (Run.program limits program m)

/-- Two ends of a program that cannot be told apart, up to the frames of functions. -/
structure Ending.Alike (W : World) (ending ending' : Ending) : Prop where
  machine : ending.machine.Alike W ending'.machine
  output : ending'.machine.output = ending.machine.output
  reports : ending'.reports = ending.reports
  escaped : ending'.escaped = ending.escaped
  globals : Bindings.Alike (Value.Alike W) ending.machine.globals ending'.machine.globals

theorem Ending.alike_of_machine {W : World} {m m' : Machine} (h : m.Alike W m') (reports : List Report)
    (escaped : Option Fault) : Ending.Alike W ⟨m, reports, escaped⟩ ⟨m', reports, escaped⟩ :=
  ⟨h, h.output, rfl, rfl, h.bindingsOf Binding.shared_nil h.global⟩

/-- A program and the spread one end alike, unless one of them exceeds its nesting. -/
theorem interpret_spread {m : Machine} {limits limits' : Limits} {bound bound' : List (Stmt Distance)}
    (hm : m.Whole) (hlimits : limits'.repetitions = limits.repetitions) (h : Stmt.SpreadAll [] bound bound')
    (hfits : ¬ m.Overflows limits bound) (hfits' : ¬ m.Overflows limits' bound') :
    ∃ W, (m.interpret limits bound).Alike W (m.interpret limits' bound') := by
  have hfaces : Faces ((List.range m.frames.size).map fun id => ⟨[], id, id⟩) [] m m :=
    ⟨hm.alike, List.mem_map.2 ⟨m.current, List.mem_range.2 hm.current, rfl⟩⟩
  have hpairs := Run.tracks_program hlimits hfaces h hfits hfits'
  unfold interpret
  cases hrun : Run.program limits bound m <;> cases hrun' : Run.program limits' bound' m <;>
    rw [hrun, hrun'] at hpairs
  · obtain ⟨W, hW, -⟩ := hpairs
    exact ⟨W, Ending.alike_of_machine hW.alike _ _⟩
  · exact absurd hpairs id
  · exact absurd hpairs id
  · next fault after fault' after' =>
    obtain ⟨rfl, W, hW⟩ := hpairs
    refine ⟨W, ?_⟩
    cases fault with
    | overflow => exact absurd ⟨after, hrun⟩ hfits
    | _ => exact Ending.alike_of_machine hW.alike _ _

/-- **`else if` means the same as a nested block.**  A program that is bound without a report is so with every
`else if` put into an `else` block of its own.  From any machine in which every frame that is referred to is there,
and unless the nesting of one of them exceeds its limit, the two print the same, report the same and leave the
same global names bound, to the same values but for the frames and the inserted blocks of functions. -/
theorem interpret_nested {known : List String} {statements : List (Stmt Unit)} {bound : List (Stmt Distance)}
    (hp : Stmt.PlainAll statements) (h : Binding.program known statements = ⟨.ok bound, []⟩) :
    ∃ bound', Binding.program known (Stmt.nestedAll statements) = ⟨.ok bound', []⟩ ∧
      ∀ (m : Machine) (limits limits' : Limits), m.Whole → limits'.repetitions = limits.repetitions →
        ¬ m.Overflows limits bound → ¬ m.Overflows limits' bound' →
          ∃ W, (m.interpret limits bound).Alike W (m.interpret limits' bound') := by
  obtain ⟨bound', hbound', hspread⟩ := Binding.program_nested hp h
  exact ⟨bound', hbound', fun m limits limits' hm hlimits hfits hfits' =>
    interpret_spread hm hlimits hspread hfits hfits'⟩

/-- A program that reports nothing does not exceed its nesting. -/
theorem not_overflows_of_reports {m : Machine} {limits : Limits} {program : List (Stmt Distance)}
    (h : (m.interpret limits program).reports = []) : ¬ m.Overflows limits program := by
  rintro ⟨after, hrun⟩
  rw [interpret, hrun] at h
  cases h

/-- A function inside an `else if` that reads a parameter outside of it. -/
def elseText : String :=
  "function f(a):\n if null:\n  return f\n else if a:\n  function g():\n   return a\n  return g\nprint f(clock)()\n"

/-- The names that a new session knows. -/
def freshNames : List String :=
  (fresh 0).globals.names

theorem interpret_nested_elseText :
    ∃ (a : Accepted freshNames elseText) (bound' : List (Stmt Distance)),
      Binding.program freshNames (Stmt.nestedAll a.statements) = ⟨.ok bound', []⟩ ∧
        ((fresh 0).interpret ⟨50, 10⟩ a.bound).machine.output = "<native fn>\n" ∧
        ∃ W, ((fresh 0).interpret ⟨50, 10⟩ a.bound).Alike W ((fresh 0).interpret ⟨50, 10⟩ bound') := by
  have hruns : ((accepted? freshNames elseText).map fun a =>
      (((fresh 0).interpret ⟨50, 10⟩ a.bound).machine.output,
        ((fresh 0).interpret ⟨50, 10⟩ a.bound).reports.isEmpty &&
          (Binding.program freshNames (Stmt.nestedAll a.statements)).result.toOption.any fun bound' =>
            ((fresh 0).interpret ⟨50, 10⟩ bound').reports.isEmpty)) = some ("<native fn>\n", true) := by
    decide +kernel
  obtain ⟨a, -, hruns⟩ := Option.map_eq_some_iff.1 hruns
  obtain ⟨houtput, hquiet⟩ := Prod.mk.inj hruns
  obtain ⟨hleft, hright⟩ := Bool.and_eq_true_iff.1 hquiet
  obtain ⟨bound', hbound', hsame⟩ := interpret_nested (Program.plain_of_parsed a.parsed) a.resolved
  rw [hbound'] at hright
  refine ⟨a, bound', hbound', houtput, hsame (fresh 0) ⟨50, 10⟩ ⟨50, 10⟩ (Session.HasRun.fresh 0).whole rfl ?_ ?_⟩
  · exact not_overflows_of_reports (List.isEmpty_iff.1 hleft)
  · exact not_overflows_of_reports (List.isEmpty_iff.1 hright)

end Machine

end Offside
