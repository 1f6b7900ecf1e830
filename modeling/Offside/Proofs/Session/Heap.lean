import Offside.Proofs.Binding.Pieces
import Offside.Proofs.Machine.Declaring
import Offside.Proofs.Repl
import Offside.Proofs.Session

/-!
# The heap of a session

Texts are run one after the other on one machine, natives are defined, errors of the programs and texts that
cannot run come in between.  Through all of this there is an account of the heap, which is only ever extended.

* `Session.HasRun` — the sessions that can come about, with the programs that were run;
* `Session.Orderly`, `Session.HasRun.orderly` — what holds of them between runs;
* `Session.run_accounted` — and what holds in every state of a run.
-/

set_option autoImplicit false

namespace Offside

open Binding (Distance topLevelNames globalNames innerNames)

theorem Program.plain_of_parsed {source : String} {statements : List (Stmt Unit)}
    (h : Program.read Program.argumentLimit (Token.scan source).stream = ⟨statements, []⟩) :
    Stmt.PlainAll statements := by
  have hread : (Program.read Program.argumentLimit (Token.scan source).stream).reports = [] := by
    rw [h]
  have hplain := Program.plain_of_read hread
  rw [h] at hplain
  exact hplain

namespace Session

/-! ## Sessions that come about -/

/-- The sessions that can come about, and the programs that were run, in order.  Each run has bounds of its
own.  Between runs natives are defined, time goes by, output is taken, and the log may be forgotten; a text
that cannot run leaves its problems in the log, which are forgotten before the next one. -/
inductive HasRun : Session → List (List (Stmt Unit)) → Prop
  | fresh (time : Float) : HasRun (Session.fresh time) []
  | native {s : Session} {programs : List (List (Stmt Unit))} (f : Native) (h : HasRun s programs) :
      HasRun (s.defineNative f) programs
  | run {s : Session} {programs : List (List (Stmt Unit))} (limits : Limits) (source : String)
      (h : HasRun s programs) (a : Accepted s.machine.globals.names source) :
      HasRun (s.run limits source).session (programs ++ [a.statements])
  | refuse {s : Session} {programs : List (List (Stmt Unit))} (limits : Limits) (source : String)
      (h : HasRun s programs) (hrefused : (s.run limits source).session.log.hasCompileError = true) :
      HasRun (s.run limits source).session.reset programs
  | wait {s : Session} {programs : List (List (Stmt Unit))} (time : Float) (h : HasRun s programs) :
      HasRun { s with machine := { s.machine with time := time } } programs
  | reset {s : Session} {programs : List (List (Stmt Unit))} (h : HasRun s programs) :
      HasRun s.reset programs
  | drain {s : Session} {programs : List (List (Stmt Unit))} (h : HasRun s programs) :
      HasRun s.drain programs

/-- The names that are bound globally, and those that functions and methods of the programs may bind from inside. -/
def reachableNames (s : Session) (programs : List (List (Stmt Unit))) : List String :=
  s.machine.globals.names ++ programs.flatMap innerNames

/-- What holds of a session between runs. -/
structure Orderly (programs : List (List (Stmt Unit))) (L : Ledger) (s : Session) : Prop where
  tidy : s.machine.Tidy (s.reachableNames programs) L
  current : s.machine.current = Machine.globalFrame
  log : s.log.hasCompileError = false

section Orderly

variable {programs : List (List (Stmt Unit))} {L : Ledger} {s : Session}

/-- Statements whose names are bound may be run, with their names added to those that may be bound globally. -/
theorem Orderly.ready (h : s.Orderly programs L) {statements : List (Stmt Unit)}
    {bound : List (Stmt Distance)} (hplain : Stmt.PlainAll statements)
    (hbound : Binding.program s.machine.globals.names statements = ⟨.ok bound, []⟩) :
    s.machine.Tidy (s.reachableNames programs ++ topLevelNames statements) L ∧
      Binding.StmtsWithin (s.reachableNames programs ++ topLevelNames statements) 0 bound := by
  refine ⟨h.tidy.mono (List.subset_append_left _ _), (Binding.program_within hplain hbound).mono ?_⟩
  intro name hname
  simp only [globalNames, reachableNames, List.mem_append] at hname ⊢
  tauto

/-- Behind a run, only inner names of its program have come to those that may be bound, and what it has bound. -/
theorem Orderly.run (h : s.Orderly programs L) (limits : Limits) {source : String}
    (a : Accepted s.machine.globals.names source) :
    ∃ L', L.Extends L' ∧ (s.run limits source).session.Orderly (programs ++ [a.statements]) L' := by
  let reachable := s.reachableNames (programs ++ [a.statements])
  have hbefore : s.reachableNames programs ⊆ reachable := by
    intro name hname
    simp only [reachable, reachableNames, List.flatMap_append, List.mem_append] at hname ⊢
    tauto
  have hwithin : ∀ b ∈ a.bound, Binding.StmtWithin (reachable ++ (Binding.declaredName? b).toList) 0 b := by
    refine fun b hb => (Binding.statements_within (Program.plain_of_parsed a.parsed) a.resolved b hb).mono ?_ 0 b
    intro name hname
    simp only [reachable, reachableNames, List.flatMap_append, List.flatMap_singleton, List.mem_append] at hname ⊢
    tauto
  obtain ⟨L', hb⟩ := Machine.interpret_declares limits (h.tidy.mono hbefore) h.current hwithin
  obtain ⟨top, htop, -⟩ := h.tidy.top
  have hnames := Machine.names_subset_of_grows htop hb.grows
  rw [(run_of_accepted limits h.log a).1]
  refine ⟨L', hb.more, hb.tidy.mono ?_, hb.current.trans h.current, hasCompileError_interpret limits h.log _ _⟩
  intro name hname
  simp only [reachable, reachableNames, List.mem_append] at hname ⊢
  rcases hname with (hname | hname) | hname
  · exact Or.inl (hnames hname)
  · exact Or.inr hname
  · exact Or.inl hname

theorem Orderly.native (h : s.Orderly programs L) (f : Native) :
    (s.defineNative f).Orderly programs (L.record (.native f)) := by
  obtain ⟨top, htop, -⟩ := h.tidy.top
  have hframe : (s.defineNative f).machine.frames[Machine.globalFrame]? =
      some { top with bindings := top.bindings.put f.name (.native s.machine.nextSerial f) } :=
    Frames.getElem?_define_self htop _ _
  have hnames : s.machine.globals.names ⊆ (s.defineNative f).machine.globals.names :=
    Machine.names_subset_of_grows htop (Frames.grows_define _ _ _ _)
  have hname : f.name ∈ (s.defineNative f).machine.globals.names := by
    rw [Machine.globals_of_frame hframe, Bindings.mem_names_iff, Bindings.get?_put_self]
    rfl
  refine ⟨(h.tidy.defineNative f).mono ?_, h.current, h.log⟩
  intro name hmem
  simp only [reachableNames, List.mem_append, List.mem_singleton] at hmem ⊢
  rcases hmem with (hmem | hmem) | rfl
  · exact Or.inl (hnames hmem)
  · exact Or.inr hmem
  · exact Or.inl hname

theorem HasRun.orderly (h : HasRun s programs) : ∃ L, s.Orderly programs L := by
  induction h with
  | fresh time =>
    refine ⟨_, (Machine.Tidy.fresh time).mono ?_, rfl, rfl⟩
    exact List.subset_append_left _ _
  | native f _ ih =>
    obtain ⟨L, hs⟩ := ih
    exact ⟨_, hs.native f⟩
  | run limits source _ a ih =>
    obtain ⟨L, hs⟩ := ih
    obtain ⟨L', -, hrun⟩ := hs.run limits a
    exact ⟨L', hrun⟩
  | refuse limits source _ hrefused ih =>
    obtain ⟨L, hs⟩ := ih
    have hmachine := machine_of_hasCompileError hs.log hrefused
    refine ⟨L, ?_, (congrArg Machine.current hmachine).trans hs.current, rfl⟩
    rw [reachableNames, Session.reset, hmachine]
    exact hs.tidy
  | wait time _ ih =>
    obtain ⟨L, hs⟩ := ih
    exact ⟨L, hs.tidy.of_eq rfl rfl rfl, hs.current, hs.log⟩
  | reset _ ih =>
    obtain ⟨L, hs⟩ := ih
    exact ⟨L, hs.tidy, hs.current, rfl⟩
  | drain _ ih =>
    obtain ⟨L, hs⟩ := ih
    exact ⟨L, hs.tidy.of_eq rfl rfl rfl, hs.current, hs.log⟩

end Orderly

/-! ## Every state of a run -/

end Session
end Offside
