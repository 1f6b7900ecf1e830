import Offside.Proofs.Binding.Known
import Offside.Proofs.Reader.Complaints
import Offside.Proofs.Repl
import Offside.Proofs.Session

/-!
# Checking and running

An editor checks a text without running it, and knows no names beforehand; a run in a new session knows those
of its global frame.  What the two report before a program runs differs in one respect only: the check also
reports the clock as read too early, where the run takes it for the global name that it is.

* `Session.hasCompileError_run` — a text can run if none of the phases before reports a problem;
* `Session.checked_run` — when a text that is checked can run;
* `Session.clockText_runs` — a text on which the check reports, and which can run.
-/

set_option autoImplicit false

namespace Offside

/-! ## Reports of the phases -/

theorem Log.hasCompileError_eq_false_iff {log : Log} (h : ∀ r ∈ log, r.stage = .compile) :
    log.hasCompileError = false ↔ log = [] := by
  cases log with
  | nil => exact ⟨fun _ => rfl, fun _ => rfl⟩
  | cons r more => simp [Log.hasCompileError, Report.isCompile, h r List.mem_cons_self]

/-- Scanning reports on characters alone. -/
theorem Token.problem_of_scan {source : String} {r : Report} (hr : r ∈ (Token.scan source).reports) :
    r.stage = .compile ∧ r.problem ≠ .ownInitializer := by
  obtain ⟨piece, -, hr⟩ := List.mem_flatMap.1 hr
  unfold Token.problemsOf at hr
  split at hr
  · obtain ⟨c, -, rfl⟩ := List.mem_map.1 hr
    exact ⟨rfl, nofun⟩
  · rw [List.mem_singleton.1 hr]
    exact ⟨rfl, nofun⟩
  · cases hr

/-- Reading reports on the grammar alone. -/
theorem Program.problem_of_read {argumentLimit : Nat} {stream : Token.Stream} {r : Report}
    (hr : r ∈ (Program.read argumentLimit stream).reports) :
    r.stage = .compile ∧ r.problem ≠ .ownInitializer := by
  obtain ⟨t, problem, -, hproblem, rfl⟩ := Program.cites_of_read hr
  refine ⟨rfl, ?_⟩
  rintro rfl
  cases hproblem

/-- The statements of a text, those that could not be read replaced. -/
def Program.ofSource (source : String) : Program :=
  Program.read Program.argumentLimit (Token.scan source).stream

theorem Checked.log_ofSource (source : String) : (Checked.ofSource source).log =
    (Token.scan source).reports ++ (Program.ofSource source).reports ++
      (Binding.program [] (Program.ofSource source).statements).reports :=
  rfl

theorem Binding.name_of_extra {statements : List (Stmt Unit)} {known name : String}
    (h : Binding.Extra (Binding.globalNames [] statements) (Binding.globalNames [known] statements) name) :
    name = known := by
  obtain ⟨hknown, hnot⟩ := h
  rcases List.mem_append.1 hknown with hmem | hmem
  · exact List.mem_singleton.1 hmem
  · exact absurd hmem hnot

namespace Session

variable {limits : Limits} {s : Session}

theorem hasCompileError_report (hlog : s.log.hasCompileError = false) {reports : List Report}
    (hreports : ∀ r ∈ reports, r.stage = .compile) :
    (s.report reports).log.hasCompileError = false ↔ reports = [] := by
  show Log.hasCompileError (s.log ++ reports) = false ↔ reports = []
  rw [Log.hasCompileError_append, hlog, Bool.false_or, Log.hasCompileError_eq_false_iff hreports]

/-- A phase that reports a problem is the last one. -/
theorem hasCompileError_of_proceed (hlog : s.log.hasCompileError = false) {fuel : Nat} {stage next : Stage}
    {reports : List Report} (hreports : ∀ r ∈ reports, r.stage = .compile)
    (h : s.advance limits stage = s.proceed reports next) :
    (runFrom limits (fuel + 1) s stage).session.log.hasCompileError = false ↔
      reports = [] ∧ (runFrom limits fuel s next).session.log.hasCompileError = false := by
  by_cases hnil : reports = []
  · rw [hnil, proceed_nil hlog] at h
    simp only [runFrom, h, hnil, true_and]
  · have hlast : (s.report reports).log.hasCompileError = true := by
      rw [← Bool.not_eq_false, hasCompileError_report hlog hreports]
      exact hnil
    have hdone : s.proceed reports next = (s.report reports, .done) := by
      simp only [proceed, hlast, if_true]
    simp only [runFrom, h, hdone, hlast, hnil, false_and, Bool.true_eq_false]

/-- Names that are bound while a program runs cause no further report before it runs. -/
theorem hasCompileError_of_tree (hlog : s.log.hasCompileError = false) {fuel : Nat} {stream : Token.Stream}
    {statements : List (Stmt Unit)}
    (hreports : ∀ r ∈ (Binding.program s.machine.globals.names statements).reports, r.stage = .compile) :
    (runFrom limits (fuel + 2) s (.tree stream statements)).session.log.hasCompileError = false ↔
      (Binding.program s.machine.globals.names statements).reports = [] := by
  cases hresult : (Binding.program s.machine.globals.names statements).result with
  | ok bound =>
    have hadvance : s.advance limits (.tree stream statements) =
        s.proceed (Binding.program s.machine.globals.names statements).reports (.bound bound) := by
      simp only [advance, hresult]
    rw [hasCompileError_of_proceed hlog hreports hadvance, runFrom_bound]
    exact and_iff_left (hasCompileError_interpret limits hlog s.machine bound)
  | error node =>
    simp only [runFrom, advance, hresult]
    exact hasCompileError_report hlog hreports

/-- A text can run if it is scanned, read and bound without a report. -/
theorem hasCompileError_run (hlog : s.log.hasCompileError = false) (source : String)
    (hreports : ∀ r ∈ (Binding.program s.machine.globals.names (Program.ofSource source).statements).reports,
      r.stage = .compile) :
    (s.run limits source).session.log.hasCompileError = false ↔
      (Token.scan source).reports = [] ∧ (Program.ofSource source).reports = [] ∧
        (Binding.program s.machine.globals.names (Program.ofSource source).statements).reports = [] := by
  have hscan : ∀ r ∈ (Token.scan source).reports, r.stage = .compile :=
    fun _ hr => (Token.problem_of_scan hr).1
  have hread : ∀ r ∈ (Program.ofSource source).reports, r.stage = .compile :=
    fun _ hr => (Program.problem_of_read hr).1
  refine (hasCompileError_of_proceed hlog hscan rfl).trans (and_congr_right fun _ => ?_)
  refine (hasCompileError_of_proceed hlog hread rfl).trans (and_congr_right fun _ => ?_)
  exact hasCompileError_of_tree hlog hreports

/-! ## A new session -/

theorem names_fresh (time : Float) : (fresh time).machine.globals.names = [Native.clock.name] :=
  rfl

/-- What a run reports is what a check reports, less the clock that is read in its own initializer. -/
theorem thinned_checked (time : Float) (statements : List (Stmt Unit)) :
    Binding.Thinned (Binding.globalNames [] statements) (Binding.globalNames [Native.clock.name] statements)
      (Binding.program [] statements).reports
      (Binding.program (fresh time).machine.globals.names statements).reports :=
  names_fresh time ▸ Binding.program_thinned (List.nil_subset _) statements

/-- **Checking and running.**  A text that is checked without a report can run, and so can one on which the
check reports only that the clock is read in its own initializer; of a text that can run the check reports
nothing else. -/
theorem checked_run (time : Float) (limits : Limits) (source : String) :
    ((∀ r ∈ (Checked.ofSource source).log,
          r.problem = .ownInitializer ∧ r.place = .atLexeme Native.clock.name) →
        ((fresh time).run limits source).session.log.hasCompileError = false) ∧
      (((fresh time).run limits source).session.log.hasCompileError = false →
        ∀ r ∈ (Checked.ofSource source).log,
          ∃ t, t.lexeme = Native.clock.name ∧ r = Report.atToken t .ownInitializer) := by
  have hthinned := thinned_checked time (Program.ofSource source).statements
  have hstage : ∀ r ∈ (Binding.program (fresh time).machine.globals.names (Program.ofSource source).statements).reports,
      r.stage = .compile := by
    intro r hr
    obtain ⟨-, t, problem, rfl, -⟩ := hthinned.kept hr
    rfl
  rw [hasCompileError_run rfl source hstage, Checked.log_ofSource]
  constructor
  · intro hlog
    refine ⟨List.eq_nil_iff_forall_not_mem.2 fun r hr => ?_, List.eq_nil_iff_forall_not_mem.2 fun r hr => ?_,
      List.eq_nil_iff_forall_not_mem.2 fun r hr => ?_⟩
    · exact (Token.problem_of_scan hr).2 (hlog r (List.mem_append_left _ (List.mem_append_left _ hr))).1
    · exact (Program.problem_of_read hr).2 (hlog r (List.mem_append_left _ (List.mem_append_right _ hr))).1
    · obtain ⟨hchecked, t, problem, rfl, hname⟩ := hthinned.kept hr
      obtain ⟨hproblem, hplace⟩ := hlog _ (List.mem_append_right _ hchecked)
      have hlexeme : t.lexeme = Native.clock.name := by
        simp only [Report.atToken] at hplace
        split at hplace
        · cases hplace
        · exact Report.Place.atLexeme.inj hplace
      exact hname hproblem (hlexeme ▸ List.mem_append_left _ (List.mem_singleton_self _))
  · rintro ⟨hscan, hread, hbound⟩ r hr
    rw [hscan, hread, List.nil_append, List.nil_append] at hr
    rcases hthinned.dropped hr with hr | ⟨t, hextra, rfl⟩
    · rw [hbound] at hr
      cases hr
    · exact ⟨t, Binding.name_of_extra hextra, rfl⟩

/-- A function that gives the clock a new value. -/
def clockText : String :=
  "function f():\n set clock to clock()\n"

/-- A text on which a check reports, and which can run. -/
theorem clockText_runs :
    ((fresh 0).run ⟨50, 10⟩ clockText).session.log.hasCompileError = false ∧
      (Checked.ofSource clockText).log.map Report.text =
        ["[line 2] Error at 'clock': Cannot read local variable in its own initializer."] := by
  decide +kernel

end Session
end Offside
