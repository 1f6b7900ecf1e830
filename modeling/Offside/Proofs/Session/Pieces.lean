import Offside.Proofs.Binding.Pieces
import Offside.Proofs.Session.Heap

/-!
# Running a program in pieces

A program that is run as a whole, and the same program in two pieces, one behind the other: the second piece is
bound when the first one has run, and knows the names that are global by then.  After a run without an error
these are the names that were known and those of the first piece, unless a function that an earlier program left
behind binds one more.  It can do that if the run that made it ended before the name was bound outside the function.

* `Machine.names_of_program` — the global names behind a program that ends by itself;
* `Session.runTree` — the last two phases of a run;
* `Session.runTree_append` — a program does the same in pieces as it does as a whole;
* `Session.runTree_append_fails` — but not always where an earlier program has left names unbound.
-/

set_option autoImplicit false

namespace Offside

open Binding (Distance StmtsWithin declaredName? topLevelNames globalNames nestedTargets)

/-! ## Pieces of a program that is bound -/

section Interpreting

variable {limits : Limits} {m m' : Machine} {p q : List (Stmt Distance)}

theorem Run.program_append (h : Run.program limits p m = .ok () m') :
    Run.program limits (p ++ q) m = Run.program limits q m' := by
  induction p generalizing m with
  | nil =>
    cases h
    rfl
  | cons s p ih =>
    obtain ⟨_, m₁, hs, hp⟩ := Step.ok_of_bind h
    exact (Step.bind_of_ok hs).trans (ih hp)

theorem Run.program_append_of_error {fault : Fault} (h : Run.program limits p m = .error fault m') :
    Run.program limits (p ++ q) m = .error fault m' := by
  induction p generalizing m with
  | nil => cases h
  | cons s p ih =>
    cases hs : Run.execute limits limits.nesting s m with
    | error e m₁ => exact (Step.bind_of_error hs).trans ((Step.bind_of_error hs).symm.trans h)
    | ok _ m₁ => exact (Step.bind_of_ok hs).trans (ih ((Step.bind_of_ok hs).symm.trans h))

/-- A program that is interpreted without an error ends by itself. -/
theorem Machine.ok_of_interpret (hreports : (m.interpret limits p).reports = [])
    (hescaped : (m.interpret limits p).escaped = none) :
    Run.program limits p m = .ok () (m.interpret limits p).machine := by
  unfold interpret at hreports hescaped ⊢
  cases h : Run.program limits p m with
  | ok _ after => rfl
  | error fault after =>
    rw [h] at hreports hescaped
    cases fault with
    | error | overflow => cases hreports
    | _ => cases hescaped

theorem Machine.interpret_append (h : Run.program limits p m = .ok () m') :
    m.interpret limits (p ++ q) = m'.interpret limits q := by
  rw [interpret, interpret, Run.program_append h]

/-- **The global names behind a program.**  A program that ends by itself leaves those bound that were bound, and those
that it declares, and no others than the machine may bind. -/
theorem Machine.names_of_program {G : List String} {L : Ledger} (hm : m.Tidy G L)
    (hcurrent : m.current = globalFrame) (hwithin : StmtsWithin G 0 p)
    (h : Run.program limits p m = .ok () m') :
    m.globals.names ++ p.filterMap declaredName? ⊆ m'.globals.names ∧ m'.globals.names ⊆ G := by
  obtain ⟨L', hb, hdone⟩ :=
    (Run.keeps_inspectedProgram .overflow limits p hm hcurrent hwithin).ends.value_of_ok h
  constructor
  · refine List.append_subset.2 ⟨?_, ?_⟩
    · obtain ⟨top, htop, -⟩ := hm.top
      exact names_subset_of_grows htop hb.grows
    · intro name hname
      obtain ⟨s, hs, hdeclared⟩ := List.mem_filterMap.1 hname
      obtain ⟨top, htop, -⟩ := hb.tidy.top
      exact (mem_names_iff_binds htop).2 (hdone s hs name hdeclared)
  · intro name hname
    obtain ⟨v, hv⟩ := Option.isSome_iff_exists.1 (Bindings.mem_names_iff.1 hname)
    exact (hb.tidy.of_global hv).2

end Interpreting

namespace Session

/-! ## Pieces of a program that was read -/

/-- Runs statements that were read: binds them to the names that are global now, and interprets them. -/
def runTree (limits : Limits) (s : Session) (stream : Token.Stream) (statements : List (Stmt Unit)) : Pass :=
  runFrom limits 2 s (.tree stream statements)

theorem runTree_of_quiet (limits : Limits) {s : Session} (stream : Token.Stream)
    {statements : List (Stmt Unit)} {bound : List (Stmt Distance)} (hlog : s.log.hasCompileError = false)
    (h : Binding.program s.machine.globals.names statements = ⟨.ok bound, []⟩) :
    let ending := s.machine.interpret limits bound
    (s.runTree limits stream statements).session = ⟨ending.machine, s.log ++ ending.reports⟩ ∧
      (s.runTree limits stream statements).escaped = ending.escaped := by
  intro ending
  have hresolved : s.advance limits (.tree stream statements) = (s, .more (.bound bound)) := by
    rw [advance, h]
    exact proceed_nil hlog _
  rw [runTree, runFrom, hresolved]
  simp only [runFrom_bound]
  exact ⟨rfl, rfl⟩

theorem runTree_of_bound (limits : Limits) {s : Session} (stream : Token.Stream)
    {statements : List (Stmt Unit)} {bound : List (Stmt Distance)} (hlog : s.log = [])
    (h : Binding.program s.machine.globals.names statements = ⟨.ok bound, []⟩) :
    let ending := s.machine.interpret limits bound
    (s.runTree limits stream statements).session = ⟨ending.machine, ending.reports⟩ ∧
      (s.runTree limits stream statements).escaped = ending.escaped := by
  have hquiet := runTree_of_quiet limits stream (s := s) (by rw [hlog]; rfl) h
  rwa [hlog] at hquiet

/-- If no report of a run is an error of the program, there is none. -/
theorem reports_of_interpret {limits : Limits} {m : Machine} {p : List (Stmt Distance)}
    (h : Log.hasRuntimeError (m.interpret limits p).reports = false) : (m.interpret limits p).reports = [] := by
  refine List.eq_nil_iff_forall_not_mem.2 ?_
  intro r hr
  have hstage := m.stage_of_interpret limits p r hr
  have hnot := List.any_eq_false.1 h r hr
  simp [Report.isRuntime, hstage] at hnot

/-- Statements that run without an error leave the machine as their program does, and nothing in the log. -/
theorem ok_of_runTree {limits : Limits} {s : Session} {stream : Token.Stream}
    {statements : List (Stmt Unit)} {bound : List (Stmt Distance)} (hlog : s.log = [])
    (hbound : Binding.program s.machine.globals.names statements = ⟨.ok bound, []⟩)
    (hran : (s.runTree limits stream statements).session.log.hasRuntimeError = false)
    (hescaped : (s.runTree limits stream statements).escaped = none) :
    ∃ after, (s.runTree limits stream statements).session = ⟨after, []⟩ ∧
      Run.program limits bound s.machine = .ok () after := by
  obtain ⟨hsession, hend⟩ := runTree_of_bound limits stream hlog hbound
  rw [hsession] at hran
  rw [hend] at hescaped
  have hquiet := reports_of_interpret hran
  rw [hquiet] at hsession
  exact ⟨_, hsession, Machine.ok_of_interpret hquiet hescaped⟩

/-- The global names behind statements that run without an error: those from before, their own, and no others than
inner names of earlier programs. -/
theorem Orderly.names_of_program {programs : List (List (Stmt Unit))} {L : Ledger} {s : Session}
    (h : s.Orderly programs L) {limits : Limits} {p : List (Stmt Unit)} {bound : List (Stmt Distance)}
    {after : Machine} (hplain : Stmt.PlainAll p)
    (hbound : Binding.program s.machine.globals.names p = ⟨.ok bound, []⟩)
    (hrun : Run.program limits bound s.machine = .ok () after) :
    globalNames s.machine.globals.names p ⊆ after.globals.names ∧
      ∀ name ∈ after.globals.names, name ∈ globalNames s.machine.globals.names p ∨
        ∃ program ∈ programs, name ∈ nestedTargets program ∧ name ∈ topLevelNames program := by
  obtain ⟨htidy, hwithin⟩ := h.ready hplain hbound
  obtain ⟨hbinds, hreaches⟩ := Machine.names_of_program htidy h.current hwithin hrun
  rw [Binding.declared_of_program hplain hbound] at hbinds
  refine ⟨hbinds, fun name hname => ?_⟩
  have hmem := hreaches hname
  simp only [reachableNames, globalNames, List.mem_append, List.mem_flatMap, Binding.mem_innerNames] at hmem ⊢
  tauto

/-- **A program may be run in pieces.**  Take a session that has come about, with an empty log, and two lists of
statements that were read.  Let them be bound without a report as one program, let the first one run without
an error, and let it set inside its scopes no name of the second one that is global only through it.  Where an
earlier program of the session sets a name inside its scopes that it also binds outside them, and the second list sets
this name inside its own scopes, let the name be bound in front of both lists, or be a name of one of them.  Then

* behind the first list the names from before and its own are global, and no others than such names of earlier
  programs;
* the second list, run behind it, leaves the same session as both do as one program: the same output, the same
  log, the same frames and fields; and it escapes with the same fault, if any. -/
theorem runTree_append {s : Session} {programs : List (List (Stmt Unit))} {first second : String}
    {p q : List (Stmt Unit)} {bound : List (Stmt Distance)} (limits : Limits) (stream : Token.Stream)
    (h : HasRun s programs) (hlog : s.log = [])
    (hp : Program.read Program.argumentLimit (Token.scan first).stream = ⟨p, []⟩)
    (hq : Program.read Program.argumentLimit (Token.scan second).stream = ⟨q, []⟩)
    (hbound : Binding.program s.machine.globals.names (p ++ q) = ⟨.ok bound, []⟩)
    (hran : (s.runTree limits (Token.scan first).stream p).session.log.hasRuntimeError = false)
    (hescaped : (s.runTree limits (Token.scan first).stream p).escaped = none)
    (hlocal : ∀ name ∈ nestedTargets p, name ∈ topLevelNames q → name ∈ globalNames s.machine.globals.names p)
    (hearlier : ∀ program ∈ programs, ∀ name ∈ nestedTargets program, name ∈ topLevelNames program →
      name ∈ nestedTargets q → name ∈ globalNames s.machine.globals.names (p ++ q)) :
    let between := (s.runTree limits (Token.scan first).stream p).session
    let pieces := between.runTree limits (Token.scan second).stream q
    let whole := s.runTree limits stream (p ++ q)
    (∀ name ∈ globalNames s.machine.globals.names p, name ∈ between.machine.globals.names) ∧
      (∀ name ∈ between.machine.globals.names, name ∈ globalNames s.machine.globals.names p ∨
        ∃ program ∈ programs, name ∈ nestedTargets program ∧ name ∈ topLevelNames program) ∧
      pieces.session = whole.session ∧ pieces.escaped = whole.escaped := by
  obtain ⟨L, hs⟩ := h.orderly
  have hplain := Program.plain_of_parsed hp
  obtain ⟨bound₁, bound₂, rfl, hfirst, hsecond⟩ :=
    Binding.program_append hplain (Program.plain_of_parsed hq) hbound hlocal
  obtain ⟨after, hbetween, hrun⟩ := ok_of_runTree hlog hfirst hran hescaped
  obtain ⟨hbinds, hreaches⟩ := hs.names_of_program hplain hfirst hrun
  -- what the first list has bound over and above its own names does not count as global in the second list
  have hsame : ∀ name ∈ nestedTargets q,
      name ∈ globalNames after.globals.names q ↔ name ∈ globalNames s.machine.globals.names (p ++ q) := by
    intro name hnested
    rw [Binding.mem_globalNames_append, globalNames, List.mem_append]
    constructor
    · rintro (hname | hname)
      · rcases hreaches name hname with hglobal | ⟨program, hprogram, hinside, houtside⟩
        · exact Or.inl hglobal
        · exact Binding.mem_globalNames_append.1 (hearlier program hprogram name hinside houtside hnested)
      · exact Or.inr hname
    · exact fun hname => hname.imp_left fun hglobal => hbinds hglobal
  rw [hbetween]
  intro between pieces whole
  have hlog' : between.log = [] := rfl
  obtain ⟨hpieces, hpiecesEnd⟩ :=
    runTree_of_bound limits (Token.scan second).stream hlog' (hsecond _ hsame)
  obtain ⟨hwhole, hwholeEnd⟩ := runTree_of_bound limits stream hlog hbound
  rw [Machine.interpret_append hrun] at hwhole hwholeEnd
  exact ⟨hbinds, hreaches, hpieces.trans hwhole.symm, hpiecesEnd.trans hwholeEnd.symm⟩

/-! ## One session in which pieces do the same, and one in which they do not -/

/-- The statements of a text. -/
def statementsOf (source : String) : List (Stmt Unit) :=
  (Program.read Program.argumentLimit (Token.scan source).stream).statements

theorem parsed_statementsOf {source : String}
    (h : (Program.read Program.argumentLimit (Token.scan source).stream).reports = []) :
    Program.read Program.argumentLimit (Token.scan source).stream = ⟨statementsOf source, []⟩ := by
  rw [← h]
  rfl

theorem exists_bound {outcome : Binding.Outcome} (h : outcome.result.isOk = true ∧ outcome.reports = []) :
    ∃ bound, outcome = ⟨.ok bound, []⟩ := by
  obtain ⟨result, reports⟩ := outcome
  obtain ⟨hresult, rfl⟩ := h
  cases result with
  | error e => cases hresult
  | ok bound => exact ⟨bound, rfl⟩

/-- A function that sets two global names, and an error before the second one is bound. -/
def olderText : String :=
  "set a to \"old\"\nfunction h():\n set a to \"called\"\n set z to a\nb()\nset z to null"

/-- A call of the function that `olderText` leaves behind, a function that sets a name of its own, and one more name
that is bound. -/
def firstText : String :=
  "h()\nfunction f():\n set c to a\nset d to a"

/-- A function that sets a name of `olderText` and one of `firstText`. -/
def secondText : String :=
  "function g():\n set a to \"new\"\n set d to a\ng()\nprint d"

theorem runTree_append_secondText :
    let s := ((fresh 0).run ⟨50, 10⟩ olderText).session.reset
    let between := (s.runTree ⟨50, 10⟩ (Token.scan firstText).stream (statementsOf firstText)).session
    let pieces := between.runTree ⟨50, 10⟩ (Token.scan secondText).stream (statementsOf secondText)
    let whole := s.runTree ⟨50, 10⟩ (Token.scan firstText).stream (statementsOf firstText ++ statementsOf secondText)
    (∃ programs, HasRun s programs ∧ programs.length = 1) ∧
      "z" ∈ between.machine.globals.names ∧ "z" ∉ globalNames s.machine.globals.names (statementsOf firstText) ∧
      pieces.session = whole.session ∧ whole.session.machine.output = "new\n" := by
  intro s between pieces whole
  have holder : (accepted? (fresh 0).machine.globals.names olderText).isSome = true := by decide +kernel
  obtain ⟨a, -⟩ := Option.isSome_iff_exists.1 holder
  have hrun := HasRun.reset (.run ⟨50, 10⟩ olderText (.fresh 0) a)
  have hearlier : ∀ program ∈ [a.statements], ∀ name ∈ nestedTargets program, name ∈ topLevelNames program →
      name ∈ nestedTargets (statementsOf secondText) →
        name ∈ globalNames s.machine.globals.names (statementsOf firstText ++ statementsOf secondText) := by
    have hread : a.statements = statementsOf olderText := by rw [statementsOf, a.parsed]
    rw [hread]
    decide +kernel
  obtain ⟨bound, hbound⟩ : ∃ bound, Binding.program s.machine.globals.names
      (statementsOf firstText ++ statementsOf secondText) = ⟨.ok bound, []⟩ :=
    exists_bound (by decide +kernel)
  obtain ⟨-, -, hsame, -⟩ := runTree_append ⟨50, 10⟩ (Token.scan firstText).stream hrun rfl
    (parsed_statementsOf (by decide +kernel)) (parsed_statementsOf (by decide +kernel)) hbound
    (by decide +kernel) (by decide +kernel) (by decide +kernel) hearlier
  exact ⟨⟨_, hrun, rfl⟩, by decide +kernel, by decide +kernel, hsame, by decide +kernel⟩

/-- A function that sets a global name, and an error before the name is bound. -/
def unfinishedText : String :=
  "function f():\n set x to \"late\"\nb()\nset x to null"

/-- A call of the function that `unfinishedText` leaves behind. -/
def lateCallText : String :=
  "f()"

/-- A function that sets a name which is global only if someone has bound it. -/
def innerText : String :=
  "function g():\n set x to \"inner\"\ng()\nprint x"

/-- Where an earlier program has left a name unbound, the first piece may bind it, and the second piece then
sets the global name instead of one of its own. -/
theorem runTree_append_fails :
    let s := ((fresh 0).run ⟨50, 10⟩ unfinishedText).session.reset
    let p := statementsOf lateCallText
    let q := statementsOf innerText
    let alone := s.runTree ⟨50, 10⟩ (Token.scan lateCallText).stream p
    let pieces := alone.session.runTree ⟨50, 10⟩ (Token.scan innerText).stream q
    let whole := s.runTree ⟨50, 10⟩ (Token.scan lateCallText).stream (p ++ q)
    (∃ programs, HasRun s programs) ∧ s.log = [] ∧
      Program.read Program.argumentLimit (Token.scan lateCallText).stream = ⟨p, []⟩ ∧
      Program.read Program.argumentLimit (Token.scan innerText).stream = ⟨q, []⟩ ∧
      (∃ bound, Binding.program s.machine.globals.names (p ++ q) = ⟨.ok bound, []⟩) ∧
      alone.session.log.hasRuntimeError = false ∧ alone.escaped = none ∧
      (∀ name ∈ nestedTargets p, name ∈ topLevelNames q → name ∈ globalNames s.machine.globals.names p) ∧
      "x" ∈ alone.session.machine.globals.names ∧ "x" ∉ globalNames s.machine.globals.names p ∧
      pieces.session.machine.output = "inner\n" ∧ whole.session.machine.output = "late\n" := by
  intro s p q alone pieces whole
  have hunfinished : (accepted? (fresh 0).machine.globals.names unfinishedText).isSome = true := by
    decide +kernel
  obtain ⟨a, -⟩ := Option.isSome_iff_exists.1 hunfinished
  refine ⟨⟨_, .reset (.run ⟨50, 10⟩ unfinishedText (.fresh 0) a)⟩, rfl, parsed_statementsOf (by decide +kernel),
    parsed_statementsOf (by decide +kernel), exists_bound (by decide +kernel), ?_⟩
  decide +kernel

end Session
end Offside
