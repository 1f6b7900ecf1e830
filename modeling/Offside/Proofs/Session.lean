import Offside.Proofs.Machine.Agreement
import Offside.Proofs.Machine.Arrivals
import Offside.Session

/-!
# Sessions in which every text is accepted

A text is accepted if it is scanned, read and bound without a report.  In a session that runs accepted texts
one after the other, errors of the programs in between, every program finds the frames that its names were
bound for: also for functions that an earlier text made, and that outlive their call or a run that failed.

* `Accepted` — a text with its statements, bound without a report; `accepted?` decides it;
* `Session.History` — the visits of all texts so far, and from which routines the functions of a session were made;
* `Session.Reached` — the sessions that accepted texts lead to, with their histories;
* `Session.run_agrees` — in such a session a run agrees with its visits at every node, and ends as it may.
-/

set_option autoImplicit false

namespace Offside

open Binding (Visit Path Distance LieIn)

/-! ## Accepted texts -/

/-- The statements of a text that is scanned, read and bound without a report, given the names already bound
in the global frame. -/
structure Accepted (known : List String) (source : String) where
  statements : List (Stmt Unit)
  bound : List (Stmt Distance)
  scanned : (Token.scan source).reports = []
  parsed : Program.read Program.argumentLimit (Token.scan source).stream = ⟨statements, []⟩
  resolved : Binding.program known statements = ⟨.ok bound, []⟩

/-- The statements of a text, if it is accepted. -/
def accepted? (known : List String) (source : String) : Option (Accepted known source) :=
  if scanned : (Token.scan source).reports = [] then
    match parsed : Program.read Program.argumentLimit (Token.scan source).stream with
    | ⟨statements, []⟩ =>
      match resolved : Binding.program known statements with
      | ⟨.ok bound, []⟩ => some ⟨statements, bound, scanned, parsed, resolved⟩
      | _ => none
    | _ => none
  else none

namespace Accepted

variable {known : List String} {source : String}

/-- The visits of the walk that bound the text, which is the program of the given number. -/
def visits (a : Accepted known source) (number : Nat) : List Visit :=
  Binding.programVisits number known a.statements

theorem fits (a : Accepted known source) {V : List Visit} {number : Nat} (hV : a.visits number ⊆ V) :
    Binding.StmtsFit V [number] 0 [] a.bound := by
  have hread : (Program.read Program.argumentLimit (Token.scan source).stream).reports = [] := by
    rw [a.parsed]
  have hplain := Program.plain_of_read hread
  rw [a.parsed] at hplain
  exact Binding.program_fits hplain a.resolved hV

end Accepted

/-! ## Sessions -/

namespace Session

/-- What is remembered of the texts that were run: how many they are, the visits of all of them, and the paths of the
routines from which functions were made. -/
structure History where
  texts : Nat
  visits : List Visit
  origins : List (Nat × Path)

namespace History

variable {known : List String} {source : String}

/-- A run of one more text from a machine, with an account of where it comes to. -/
def tour (history : History) (limits : Limits) (m : Machine) (a : Accepted known source) :
    EStateM.Result Fault Toured Unit :=
  Tour.program limits [history.texts] 0 a.bound ⟨m, history.origins, []⟩

/-- The visits of the texts so far and of one more. -/
def visitsWith (history : History) (a : Accepted known source) : List Visit :=
  history.visits ++ a.visits history.texts

/-- The history behind a run of one more text. -/
def extend (history : History) (limits : Limits) (m : Machine) (a : Accepted known source) : History where
  texts := history.texts + 1
  visits := history.visitsWith a
  origins := (Tour.toured (history.tour limits m a)).origins

end History

/-- The sessions that accepted texts lead to, and their histories.  Each run has bounds of its own; between runs time
goes by, and the log may be forgotten. -/
inductive Reached : Session → History → Prop
  | fresh (time : Float) : Reached (Session.fresh time) ⟨0, [], []⟩
  | run {s : Session} {history : History} (limits : Limits) (source : String) (h : Reached s history)
      (a : Accepted s.machine.globals.names source) :
      Reached (s.run limits source).session (history.extend limits s.machine a)
  | wait {s : Session} {history : History} (time : Float) (h : Reached s history) :
      Reached { s with machine := { s.machine with time := time } } history
  | reset {s : Session} {history : History} (h : Reached s history) : Reached s.reset history

theorem proceed_nil {s : Session} (hlog : s.log.hasCompileError = false) (next : Stage) :
    s.proceed [] next = (s, .more next) := by
  simp [proceed, report, hlog]

/-- The last phase, in which the statements are interpreted. -/
theorem runFrom_bound (limits : Limits) (s : Session) (fuel : Nat) (statements : List (Stmt Distance)) :
    let ending := s.machine.interpret limits statements
    runFrom limits (fuel + 1) s (.bound statements) =
      ⟨⟨ending.machine, s.log ++ ending.reports⟩, [.interpreted], "", ending.escaped⟩ := by
  intro ending
  simp only [runFrom, advance]
  cases (s.machine.interpret limits statements).escaped <;>
    simp [report, Stage.phase, Stage.listing, ending]

/-- An accepted text goes through all phases, and its statements are interpreted. -/
theorem run_of_accepted (limits : Limits) {s : Session} {source : String}
    (hlog : s.log.hasCompileError = false) (a : Accepted s.machine.globals.names source) :
    let ending := s.machine.interpret limits a.bound
    (s.run limits source).session = ⟨ending.machine, s.log ++ ending.reports⟩ ∧
      (s.run limits source).escaped = ending.escaped := by
  intro ending
  have hscanned : s.advance limits (.source source) = (s, .more (.tokens (Token.scan source).stream)) := by
    rw [advance, a.scanned, proceed_nil hlog]
  have hparsed : s.advance limits (.tokens (Token.scan source).stream) =
      (s, .more (.tree (Token.scan source).stream a.statements)) := by
    rw [advance, a.parsed, proceed_nil hlog]
  have hresolved : s.advance limits (.tree (Token.scan source).stream a.statements) =
      (s, .more (.bound a.bound)) := by
    rw [advance, a.resolved]
    exact proceed_nil hlog _
  rw [run, runFrom, hscanned]
  simp only
  rw [runFrom, hparsed]
  simp only
  rw [runFrom, hresolved]
  simp only [runFrom_bound]
  exact ⟨rfl, rfl⟩

/-- What holds of a session between runs, for all visits so far and any that follow. -/
structure Consistent (V : List Visit) (origins : List (Nat × Path)) (s : Session) : Prop where
  sound : Toured.Sound V ⟨s.machine, origins, []⟩
  current : s.machine.current = Machine.globalFrame
  log : s.log.hasCompileError = false

theorem hasCompileError_of_runtime {reports : List Report} (h : ∀ r ∈ reports, r.stage = .runtime) :
    Log.hasCompileError reports = false := by
  refine List.any_eq_false.2 fun r hr => ?_
  simp [Report.isCompile, h r hr]

/-- A run of an accepted text keeps a session consistent. -/
theorem Consistent.run {V : List Visit} {history : History} {s : Session} {source : String}
    (h : s.Consistent V history.origins) (limits : Limits) (a : Accepted s.machine.globals.names source)
    (hV : a.visits history.texts ⊆ V) :
    (s.run limits source).session.Consistent V (history.extend limits s.machine a).origins := by
  have hproper := Toured.interpret_proper limits h.sound h.current (a.fits hV)
  rw [(run_of_accepted limits h.log a).1]
  refine ⟨hproper.sound.restart, hproper.current, ?_⟩
  rw [Log.hasCompileError_append, h.log, hasCompileError_of_runtime hproper.reports]
  rfl

theorem Reached.consistent {history : History} {s : Session} {W : List Visit} (h : Reached s history)
    (hW : history.visits ⊆ W) : s.Consistent W history.origins := by
  induction h with
  | fresh time => exact ⟨Toured.sound_fresh W time, rfl, rfl⟩
  | run limits source _ a ih =>
    obtain ⟨hvisits, htext⟩ := List.append_subset.1 hW
    exact (ih hvisits).run limits a htext
  | wait time _ ih => exact ⟨(ih hW).sound.of_eq rfl rfl rfl, (ih hW).current, (ih hW).log⟩
  | reset _ ih => exact ⟨(ih hW).sound, (ih hW).current, rfl⟩

/-- The visits of the texts so far lie in these texts, one behind the other. -/
theorem Reached.lie {history : History} {s : Session} (h : Reached s history) :
    LieIn [] 0 history.texts history.visits := by
  induction h with
  | fresh time => exact .nil
  | run limits source _ a ih =>
    exact ih.append (Binding.programVisits_lie _ _ a.statements) (Nat.zero_le _) (Nat.le_succ _)
  | wait time _ ih => exact ih
  | reset _ ih => exact ih

/-- **Names are found where they were bound.**  In any session of accepted texts, take one more accepted text, and
tour it: come to each node along its path.

* The tour is the run, with an account: each call of evaluation and execution comes to its node first of all, and what
  the tour has come to is not lost.
* Whenever the tour comes to an expression or a statement, of this text or of an earlier one, the current frame is as
  many links below the global frame as scopes were open when this node was visited; a reference with a distance finds
  its name that many links up; `super` has a distance, finds a class there and an instance one link nearer; and an
  assignment with a distance finds a frame, the global one if the distance is the number of open scopes.
* No two visits are of one node, whichever texts they belong to.
* The run ends by itself or with an error that is reported, or is cut off in a loop that exceeds its bound.
-/
theorem run_agrees {history : History} {s : Session} {source : String} (h : Reached s history) (limits : Limits)
    (a : Accepted s.machine.globals.names source) :
    Tour.erased (history.tour limits s.machine a) = Run.program limits a.bound s.machine ∧
      (∀ depth path e, Tour.ComesTo path (.expression e) (Tour.evaluate limits depth path e)) ∧
      (∀ depth path statement, Tour.ComesTo path (.statement statement) (Tour.execute limits depth path statement)) ∧
      (∀ x ∈ (Tour.toured (history.tour limits s.machine a)).arrivals,
        x.machine.AgreesAt (history.visitsWith a) x.path x.node) ∧
      ((history.visitsWith a).map Visit.path).Nodup ∧
      (s.run limits source).session.machine = (s.machine.interpret limits a.bound).machine ∧
      ((s.run limits source).escaped = none ∨ (s.run limits source).escaped = some .exhausted) ∧
      ∃ reports, (s.run limits source).session.log = s.log ++ reports ∧
        ∀ r ∈ reports, r.stage = .runtime := by
  have hs : s.Consistent (history.visitsWith a) history.origins := h.consistent (List.subset_append_left _ _)
  have hfits := a.fits (V := history.visitsWith a) (List.subset_append_right _ _)
  have htour := Tour.faithful_program limits a.bound hs.sound hs.current hfits
  have hproper := Toured.interpret_proper limits hs.sound hs.current hfits
  have hlie := (h.run limits source a).lie
  obtain ⟨hsession, hescaped⟩ := run_of_accepted limits hs.log a
  refine ⟨htour.same, fun depth => (Tour.comesTo_depth limits depth).1,
    fun depth => (Tour.comesTo_depth limits depth).2, hproper.sound.agreed, hlie.distinct, by rw [hsession], ?_, _,
    by rw [hsession], hproper.reports⟩
  rw [hescaped]
  exact hproper.escaped

/-- A class and a subclass, and a method of the superclass that is taken through `super`. -/
def classText : String :=
  "class A:\n function m():\n  return this\nclass B :: A:\n function m():\n  return super.m\n" ++
    "set f to B().m()\n"

/-- A call of the method that `classText` leaves behind. -/
def callText : String :=
  "print f()\n"

theorem run_agrees_callText :
    ∃ (history : History) (s : Session) (a : Accepted s.machine.globals.names callText), Reached s history ∧
      Tour.erased (history.tour ⟨50, 10⟩ s.machine a) = Run.program ⟨50, 10⟩ a.bound s.machine ∧
      (∀ x ∈ (Tour.toured (history.tour ⟨50, 10⟩ s.machine a)).arrivals,
        x.machine.AgreesAt (history.visitsWith a) x.path x.node) ∧
      ((s.run ⟨50, 10⟩ callText).escaped = none ∨ (s.run ⟨50, 10⟩ callText).escaped = some .exhausted) := by
  have hclass : (accepted? (fresh 0).machine.globals.names classText).isSome = true := by decide +kernel
  obtain ⟨a, -⟩ := Option.isSome_iff_exists.1 hclass
  have hcall : (accepted? ((fresh 0).run ⟨50, 10⟩ classText).session.machine.globals.names
      callText).isSome = true := by decide +kernel
  obtain ⟨b, -⟩ := Option.isSome_iff_exists.1 hcall
  have hreached := Reached.run ⟨50, 10⟩ classText (.fresh 0) a
  obtain ⟨htour, -, -, hagrees, -, -, hescaped, -⟩ := run_agrees hreached ⟨50, 10⟩ b
  exact ⟨_, _, b, hreached, htour, hagrees, hescaped⟩

end Session
end Offside
