import Offside.Repl

/-!
# Entries that cannot run

An entry of an interactive session is run once its lines are complete, and a problem that is found before it
runs keeps it from running.  Such an entry leaves nothing behind: without its lines the session goes the same
way, entry by entry.

* `Session.machine_of_hasCompileError` — a run that reports such a problem does not touch the machine;
* `Repl.course` — an interactive session entry by entry, with `Repl.shown_play` relating it to what is shown;
* `Repl.course_of_drain` — what was printed before has no influence on what follows;
* `Repl.course_erase` — erasing an entry that could not run.
-/

set_option autoImplicit false

namespace Offside

/-! ## Runs that are kept from starting -/

/-- Only errors of the program are reported while it runs. -/
theorem Machine.stage_of_interpret (limits : Limits) (m : Machine) (ss : List (Stmt Binding.Distance)) :
    ∀ r ∈ (m.interpret limits ss).reports, r.stage = .runtime := by
  unfold interpret
  intro r hr
  split at hr
  · cases hr
  · rw [List.mem_singleton.1 hr]
    rfl
  · rw [List.mem_singleton.1 hr]
    rfl
  · cases hr

namespace Session

variable {limits : Limits} {s : Session}

theorem hasCompileError_interpret (limits : Limits) (hlog : s.log.hasCompileError = false) (m : Machine)
    (ss : List (Stmt Binding.Distance)) :
    Log.hasCompileError (s.log ++ (m.interpret limits ss).reports) = false := by
  rw [Log.hasCompileError_append, hlog, Bool.false_or]
  refine List.any_eq_false.2 ?_
  intro r hr
  simp [Report.isCompile, m.stage_of_interpret limits ss r hr]

/-- The phase in front of which a run stops has seen the same machine as the first one. -/
theorem machine_of_runFrom {fuel : Nat} {stage : Stage} (hlog : s.log.hasCompileError = false)
    (h : (runFrom limits fuel s stage).session.log.hasCompileError = true) :
    (runFrom limits fuel s stage).session.machine = s.machine := by
  induction fuel generalizing s stage with
  | zero => rfl
  | succ fuel ih =>
    -- the three phases before the program runs end in `proceed`
    have hproceed : ∀ (reports : List Report) (next : Stage),
        s.advance limits stage = s.proceed reports next →
          (runFrom limits (fuel + 1) s stage).session.machine = s.machine := by
      intro reports next hadvance
      unfold runFrom at h ⊢
      rw [hadvance] at h ⊢
      unfold proceed at h ⊢
      cases hafter : (s.report reports).log.hasCompileError with
      | true =>
        simp only [hafter, if_true]
        rfl
      | false =>
        simp only [hafter, Bool.false_eq_true, if_false] at h ⊢
        exact ih hafter h
    cases stage with
    | source text => exact hproceed _ _ rfl
    | tokens stream => exact hproceed _ _ rfl
    | tree stream statements =>
      cases hresult : (Binding.program s.machine.globals.names statements).result with
      | ok bound =>
        refine hproceed (Binding.program s.machine.globals.names statements).reports (.bound bound) ?_
        simp only [advance, hresult]
      | error node =>
        unfold runFrom advance
        simp only [hresult]
        rfl
    | bound statements =>
      have hclean := hasCompileError_interpret limits hlog s.machine statements
      unfold runFrom at h
      unfold advance at h
      cases hescaped : (s.machine.interpret limits statements).escaped with
      | none =>
        simp only [hescaped, report] at h
        rw [hclean] at h
        cases h
      | some fault =>
        simp only [hescaped, report] at h
        rw [hclean] at h
        cases h

/-- **A text that cannot run does not touch the machine**: its frames, its fields, its current frame and what
it has printed are as before. -/
theorem machine_of_hasCompileError {source : String} (hlog : s.log.hasCompileError = false)
    (h : (s.run limits source).session.log.hasCompileError = true) :
    (s.run limits source).session.machine = s.machine :=
  machine_of_runFrom hlog h

end Session

/-! ## Texts shown one behind the other -/

namespace Shown

/-- All that is shown, one thing behind the other. -/
def concat (all : List Shown) : Shown :=
  all.foldr append nothing

theorem nothing_append (a : Shown) : nothing.append a = a := by
  simp [nothing, append]

theorem append_assoc (a b c : Shown) : (a.append b).append c = a.append (b.append c) := by
  simp [append, String.append_assoc]

theorem concat_append (as bs : List Shown) : concat (as ++ bs) = (concat as).append (concat bs) := by
  induction as with
  | nil => exact (nothing_append _).symm
  | cons a as ih =>
    show a.append (concat (as ++ bs)) = (a.append (concat as)).append (concat bs)
    rw [ih, append_assoc]

end Shown

/-! ## Interactive sessions entry by entry -/

namespace Repl

/-- An entry that was run: its lines, what it showed and what it reported. -/
structure Answer where
  entry : List String
  shown : Shown
  log : Log

/-- What an entry leads to when it is run on a session. -/
def answer (limits : Limits) (debug : Bool) (session : Session) (entry : List String) : Answer :=
  ⟨entry, (runEntry limits debug session entry).2,
    (session.drain.run limits ("\n".intercalate entry)).session.log⟩

/-- The course of an interactive session: the entries that were run, the state in which the inputs leave it,
and what is shown in the end. -/
structure Course where
  answers : List Answer
  last : Repl
  closing : String

/-- Takes all inputs, up to one that leaves. -/
def course (limits : Limits) (debug : Bool) (r : Repl) : List Input → Course
  | [] => ⟨[], r, ended⟩
  | .interrupt :: _ => ⟨[], r, interrupted⟩
  | .line text :: more =>
    match r.feed limits debug text with
    | none => ⟨[], r, ""⟩
    | some (next, _) =>
      let rest := next.course limits debug more
      if needsMore (r.buffer ++ [text]) then rest
      else { rest with answers := answer limits debug r.session (r.buffer ++ [text]) :: rest.answers }

variable {limits : Limits} {debug : Bool} {r : Repl}

/-! ### One line -/

/-- A line that asks to leave ends the course. -/
theorem course_of_farewell {text : String} (h : (r.buffer.isEmpty && isFarewell text) = true)
    (more : List Input) : r.course limits debug (.line text :: more) = ⟨[], r, ""⟩ := by
  simp only [course, feed, h, if_true]

/-- A line that calls for another is kept. -/
theorem course_of_needsMore {text : String} (hstays : (r.buffer.isEmpty && isFarewell text) = false)
    (h : needsMore (r.buffer ++ [text]) = true) (more : List Input) :
    r.course limits debug (.line text :: more) =
      (⟨r.session, r.buffer ++ [text]⟩ : Repl).course limits debug more := by
  simp only [course, feed, hstays, h, if_true, Bool.false_eq_true, if_false]

/-- A line that completes an entry runs it. -/
theorem course_of_complete {text : String} (hstays : (r.buffer.isEmpty && isFarewell text) = false)
    (h : needsMore (r.buffer ++ [text]) = false) (more : List Input) :
    let entry := r.buffer ++ [text]
    let rest := (⟨(runEntry limits debug r.session entry).1, []⟩ : Repl).course limits debug more
    r.course limits debug (.line text :: more) =
      { rest with answers := answer limits debug r.session entry :: rest.answers } := by
  simp only [course, feed, hstays, h, Bool.false_eq_true, if_false]

/-- What is shown in a session is what its entries show, and what is shown in the end. -/
theorem shown_play (limits : Limits) (debug : Bool) (r : Repl) (inputs : List Input) :
    (r.play limits debug inputs).shown =
      (Shown.concat ((r.course limits debug inputs).answers.map Answer.shown)).append
        ⟨(r.course limits debug inputs).closing, ""⟩ := by
  induction inputs generalizing r with
  | nil => exact (Shown.nothing_append _).symm
  | cons input more ih =>
    cases input with
    | interrupt => exact (Shown.nothing_append _).symm
    | line text =>
      cases hstays : r.buffer.isEmpty && isFarewell text with
      | true =>
        rw [course_of_farewell hstays]
        simp only [play, feed, hstays, if_true]
        exact (Shown.nothing_append _).symm
      | false =>
        cases hmore : needsMore (r.buffer ++ [text]) with
        | true =>
          rw [course_of_needsMore hstays hmore]
          simp only [play, feed, hstays, hmore, if_true, Bool.false_eq_true, if_false]
          exact (Shown.nothing_append _).trans (ih _)
        | false =>
          rw [course_of_complete hstays hmore]
          simp only [play, feed, hstays, hmore, Bool.false_eq_true, if_false, Transcript.after, ih]
          exact (Shown.append_assoc _ _ _).symm

/-! ### Whole entries -/

/-- The first entry that is run ends with some line of the input.  Whatever follows that line, the entry is
the same, and the session goes on from where the entry leaves it. -/
theorem course_first {inputs : List Input} {first : Answer} {later : List Answer}
    (h : (r.course limits debug inputs).answers = first :: later) :
    ∃ lines after, inputs = lines.map .line ++ after ∧ first.entry = r.buffer ++ lines ∧
      first = answer limits debug r.session first.entry ∧
      ∀ rest, r.course limits debug (lines.map .line ++ rest) =
        let next := (⟨(runEntry limits debug r.session first.entry).1, []⟩ : Repl).course limits debug rest
        { next with answers := first :: next.answers } := by
  induction inputs generalizing r with
  | nil => cases h
  | cons input more ih =>
    cases input with
    | interrupt => cases h
    | line text =>
      cases hstays : r.buffer.isEmpty && isFarewell text with
      | true =>
        rw [course_of_farewell hstays] at h
        cases h
      | false =>
        cases hmore : needsMore (r.buffer ++ [text]) with
        | true =>
          rw [course_of_needsMore hstays hmore] at h
          obtain ⟨lines, after, rfl, hentry, hanswer, hcourse⟩ := ih h
          refine ⟨text :: lines, after, rfl, ?_, hanswer, ?_⟩
          · rw [hentry, List.append_assoc]
            rfl
          · intro rest
            rw [List.map_cons, List.cons_append, course_of_needsMore hstays hmore]
            exact hcourse rest
        | false =>
          rw [course_of_complete hstays hmore] at h
          obtain ⟨rfl, -⟩ := List.cons.inj h
          exact ⟨[text], more, rfl, rfl, rfl, fun rest => course_of_complete hstays hmore rest⟩

/-! ## What was printed before -/

theorem drain_drain (s : Session) : s.drain.drain = s.drain :=
  rfl

/-- What a session has printed has no influence on how it goes on. -/
theorem course_of_drain (limits : Limits) (debug : Bool) {s s' : Session} (h : s.drain = s'.drain)
    (buffer : List String) (inputs : List Input) :
    let a := (⟨s, buffer⟩ : Repl).course limits debug inputs
    let b := (⟨s', buffer⟩ : Repl).course limits debug inputs
    a.answers = b.answers ∧ a.last.session.drain = b.last.session.drain ∧ a.closing = b.closing := by
  induction inputs generalizing s s' buffer with
  | nil => exact ⟨rfl, h, rfl⟩
  | cons input more ih =>
    cases input with
    | interrupt => exact ⟨rfl, h, rfl⟩
    | line text =>
      cases hstays : buffer.isEmpty && isFarewell text with
      | true =>
        rw [course_of_farewell (r := ⟨s, buffer⟩) hstays, course_of_farewell (r := ⟨s', buffer⟩) hstays]
        exact ⟨rfl, h, rfl⟩
      | false =>
        cases hmore : needsMore (buffer ++ [text]) with
        | true =>
          rw [course_of_needsMore (r := ⟨s, buffer⟩) hstays hmore,
            course_of_needsMore (r := ⟨s', buffer⟩) hstays hmore]
          exact ih h _
        | false =>
          rw [course_of_complete (r := ⟨s, buffer⟩) hstays hmore,
            course_of_complete (r := ⟨s', buffer⟩) hstays hmore]
          -- an entry is run on the drained session, which is the same for both
          simp only [runEntry, answer, h, and_self]

/-! ## Erasing an entry -/

/-- An entry that cannot run leaves the session as it was, but for what had been printed. -/
theorem runEntry_of_hasCompileError {session : Session} {entry : List String} (hlog : session.log = [])
    (h : (answer limits debug session entry).log.hasCompileError = true) :
    (runEntry limits debug session entry).1 = session.drain ∧
      (answer limits debug session entry).shown.out = "" := by
  have hclean : session.drain.log.hasCompileError = false := by
    show Log.hasCompileError session.log = false
    rw [hlog]
    rfl
  have hmachine := Session.machine_of_hasCompileError hclean h
  constructor
  · show Session.mk (session.drain.run limits ("\n".intercalate entry)).session.machine [] = session.drain
    rw [hmachine, ← hlog]
    rfl
  · show (session.drain.run limits ("\n".intercalate entry)).session.machine.output = ""
    rw [hmachine]
    rfl

/-- What erasing a failed entry from the inputs of a session comes to: the lines of the entry are a stretch of
the inputs, and without them the other entries are run as before. -/
structure Erased (limits : Limits) (debug : Bool) (r : Repl) (earlier : List Answer) (failed : Answer)
    (later : List Answer) (before after : List Input) : Prop where
  upTo : (r.course limits debug before).answers = earlier
  through : (r.course limits debug (before ++ failed.entry.map .line)).answers = earlier ++ [failed]
  untouched : (r.course limits debug (before ++ failed.entry.map .line)).last =
    ⟨(r.course limits debug before).last.session.drain, []⟩
  answers : (r.course limits debug (before ++ after)).answers = earlier ++ later
  session : (r.course limits debug (before ++ after)).last.session.drain =
    (r.course limits debug (before ++ (failed.entry.map .line ++ after))).last.session.drain
  closing : (r.course limits debug (before ++ after)).closing =
    (r.course limits debug (before ++ (failed.entry.map .line ++ after))).closing
  silent : failed.shown.out = ""

/-- The first entry can be erased if it could not run. -/
theorem erased_first {s : Session} (hlog : s.log = []) {inputs : List Input} {failed : Answer}
    {later : List Answer} (h : ((⟨s, []⟩ : Repl).course limits debug inputs).answers = failed :: later)
    (hfailed : failed.log.hasCompileError = true) :
    ∃ after, inputs = failed.entry.map .line ++ after ∧
      Erased limits debug ⟨s, []⟩ [] failed later [] after := by
  obtain ⟨lines, after, rfl, hentry, hanswer, hcourse⟩ := course_first h
  obtain rfl : failed.entry = lines := by simpa using hentry
  rw [hanswer] at hfailed
  obtain ⟨hsession, hsilent⟩ := runEntry_of_hasCompileError hlog hfailed
  rw [← hanswer] at hsilent
  simp only [hsession] at hcourse
  -- behind the failed entry the session goes on as if it had been drained
  obtain ⟨hanswers, hlast, hclosing⟩ :=
    course_of_drain limits debug (drain_drain s) [] after
  rw [hcourse after] at h
  have hend := hcourse []
  rw [List.append_nil] at hend
  refine ⟨after, rfl, rfl, ?_, ?_, ?_, ?_, ?_, hsilent⟩
  · rw [List.nil_append, hend]
    rfl
  · rw [List.nil_append, hend]
    rfl
  · exact hanswers.symm.trans (List.cons.inj h).2
  · rw [List.nil_append, List.nil_append, hcourse after]
    exact hlast.symm
  · rw [List.nil_append, List.nil_append, hcourse after]
    exact hclosing.symm

/-- An entry that could not run can be erased, wherever it is. -/
theorem exists_erased {s : Session} (hlog : s.log = []) {inputs : List Input} {earlier : List Answer}
    {failed : Answer} {later : List Answer}
    (h : ((⟨s, []⟩ : Repl).course limits debug inputs).answers = earlier ++ failed :: later)
    (hfailed : failed.log.hasCompileError = true) :
    ∃ before after, inputs = before ++ (failed.entry.map .line ++ after) ∧
      Erased limits debug ⟨s, []⟩ earlier failed later before after := by
  induction earlier generalizing s inputs with
  | nil =>
    obtain ⟨after, hinputs, herased⟩ := erased_first hlog h hfailed
    exact ⟨[], after, hinputs, herased⟩
  | cons first earlier ih =>
    obtain ⟨lines, rest, rfl, -, -, hcourse⟩ := course_first h
    rw [hcourse rest] at h
    obtain ⟨before, after, rfl, e⟩ :=
      ih (s := (runEntry limits debug s first.entry).1) rfl (List.cons.inj h).2
    refine ⟨lines.map .line ++ before, after, (List.append_assoc _ _ _).symm, ?_⟩
    constructor
    · rw [hcourse]
      exact congrArg (first :: ·) e.upTo
    · rw [List.append_assoc, hcourse]
      exact congrArg (first :: ·) e.through
    · rw [List.append_assoc, hcourse, hcourse]
      exact e.untouched
    · rw [List.append_assoc, hcourse]
      exact congrArg (first :: ·) e.answers
    · rw [List.append_assoc, List.append_assoc, hcourse, hcourse]
      exact e.session
    · rw [List.append_assoc, List.append_assoc, hcourse, hcourse]
      exact e.closing
    · exact e.silent

/-- What an entry that printed nothing adds to what was shown is no printed text. -/
theorem out_concat_of_silent {failed : Answer} (h : failed.shown.out = "") (earlier later : List Answer) :
    (Shown.concat ((earlier ++ failed :: later).map Answer.shown)).out =
      (Shown.concat ((earlier ++ later).map Answer.shown)).out := by
  rw [List.map_append, List.map_append, Shown.concat_append, Shown.concat_append]
  show _ ++ (failed.shown.out ++ _) = _
  rw [h, String.empty_append]
  rfl

/-- **An entry that cannot run leaves no trace.**  Take any inputs to a fresh interactive session and any entry
formed from them for which a problem is reported before it runs.  Its lines are a stretch of the inputs, and
deleting exactly these lines leaves the session with the same other entries in the same order, each showing and
reporting what it did; with the same final globals, and the same heap; and with the same text printed in all.
The entry itself prints nothing and leaves the machine as it found it. -/
theorem course_erase (time : Float) {inputs : List Input} {earlier : List Answer} {failed : Answer}
    {later : List Answer}
    (h : ((start time).course limits debug inputs).answers = earlier ++ failed :: later)
    (hfailed : failed.log.hasCompileError = true) :
    ∃ before after, inputs = before ++ (failed.entry.map .line ++ after) ∧
      Erased limits debug (start time) earlier failed later before after ∧
      ((start time).course limits debug (before ++ after)).last.session.machine.globals =
        ((start time).course limits debug inputs).last.session.machine.globals ∧
      ((start time).play limits debug (before ++ after)).shown.out =
        ((start time).play limits debug inputs).shown.out := by
  obtain ⟨before, after, rfl, e⟩ := exists_erased (s := .fresh time) rfl h hfailed
  change Erased limits debug (start time) earlier failed later before after at e
  have hglobals := congrArg (fun s : Session => s.machine.globals) e.session
  refine ⟨before, after, rfl, e, hglobals, ?_⟩
  rw [shown_play, shown_play, h, e.answers, e.closing]
  show _ ++ _ = _ ++ _
  rw [out_concat_of_silent e.silent]

/-- A good entry, a bad one and another good one. -/
def threeEntries : List Input :=
  [.line "set x to \"a\"", .line "print (", .line "print x"]

theorem course_erase_threeEntries :
    ∃ first failed third,
      ((start 0).course ⟨50, 10⟩ false threeEntries).answers = [first, failed, third] ∧
      failed.log.hasCompileError = true ∧ third.shown.out = "a\n" ∧
      ∃ before after, threeEntries = before ++ (failed.entry.map .line ++ after) ∧
        ((start 0).course ⟨50, 10⟩ false (before ++ after)).answers = [first, third] := by
  have hentries : ((start 0).course ⟨50, 10⟩ false threeEntries).answers.map
      (fun a => (a.log.hasCompileError, a.shown.out)) = [(false, ""), (true, ""), (false, "a\n")] := by
    decide +kernel
  generalize hanswers : ((start 0).course ⟨50, 10⟩ false threeEntries).answers = answers at hentries
  match answers, hentries with
  | [first, failed, third], hentries =>
    simp only [List.map_cons, List.map_nil, List.cons.injEq, Prod.mk.injEq, and_true] at hentries
    obtain ⟨-, ⟨hfailed, -⟩, -, hthird⟩ := hentries
    have hsplit : ((start 0).course ⟨50, 10⟩ false threeEntries).answers = [first] ++ failed :: [third] := hanswers
    obtain ⟨before, after, hinputs, e, -⟩ := course_erase 0 hsplit hfailed
    exact ⟨first, failed, third, rfl, hfailed, hthird, before, after, hinputs, e.answers⟩

end Repl
end Offside
