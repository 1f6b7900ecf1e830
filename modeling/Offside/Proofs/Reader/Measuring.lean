import Offside.Proofs.Reader.Breaks
import Offside.Proofs.Reader.Phrases
import Offside.Proofs.Reader.Recovery
import Offside.Proofs.Reader.Totality

/-!
# How indentation is measured

A report about the indentation of a line tells how wide that is.  Reading comes to a line from the end of the one
before, so it measures all of it.  Only the skipping behind an error can come to rest inside the indentation of a line:
it skips one token whatever it is, so it may leave all but the first blank.  Then the error itself has been reported on
that line.

* `leading` — the indentation of a line of the text;
* `length_lineRun`, `length_lineRun_of_cut` — what is measured of it;
* `Cursor.Clear`, `Cursor.Resumed`, `Cursor.Stopped` — where reading is within a line, in front of a line and behind an
  error, with `Cursor.Stopped.recover` leading from the last to the second;
* `Reading.measured_of_read` — the reports about a whole text.
-/

set_option autoImplicit false

namespace Offside

open Token (Kind)

/-! ## The indentation of a line -/

/-- The number of blanks that lead a line of the text. -/
def leading (T : List Token) (line : Int) : Nat :=
  T.countP fun t => t.isIndentation && t.line == line

/-- The text ends with `rest`, and what is in front of that does not part the leading blanks of a line. -/
def Uncut (T rest : List Token) : Prop :=
  ∃ passed, T = passed ++ rest ∧ ∀ x ∈ passed.getLast?, ∀ y ∈ rest.head?,
    x.isIndentation = true → y.isIndentation = true → x.line ≠ y.line

theorem isIndentation_head_dropWhile {ts : List Token} {y : Token}
    (h : y ∈ (ts.dropWhile Token.isIndentation).head?) : y.isIndentation = false := by
  have hhead := List.head?_dropWhile_not Token.isIndentation ts
  rw [Option.mem_def.1 h] at hhead
  simpa using hhead

section Uncut

variable {T rest : List Token} {x : Token}

theorem uncut_of_real_head (passed : List Token) (h : T = passed ++ rest)
    (hreal : ∀ y ∈ rest.head?, y.isIndentation = false) : Uncut T rest := by
  refine ⟨passed, h, fun x _ y hy _ hblank => ?_⟩
  rw [hreal y hy] at hblank
  cases hblank

theorem uncut_of_real_last (passed : List Token) (h : T = passed ++ x :: rest) (hreal : x.isIndentation = false) :
    Uncut T rest := by
  refine ⟨passed ++ [x], by simpa using h, fun z hz y _ hblank => ?_⟩
  obtain rfl : x = z := by simpa using hz
  rw [hreal] at hblank
  cases hblank

end Uncut

/-- What has been measured: blanks on the line of a real token, behind indentation of other lines. -/
theorem split_of_lineRun {rest run after : List Token} {first : Token} (h : lineRun rest = (run, first :: after)) :
    ∃ gap blanks, rest = gap ++ (blanks ++ first :: after) ∧ run = blanks.reverse ∧
      (∀ t ∈ gap, t.isIndentation = true) ∧ (∀ t ∈ gap.getLast?, t.line ≠ first.line) ∧
      (∀ t ∈ blanks, t.isIndentation = true ∧ t.line = first.line) ∧ first.isIndentation = false := by
  rcases lineRun_cases rest with hblank | ⟨gap, blanks, t, back, rfl, hgap, hlast, hblanks, hreal⟩
  · rw [lineRun, lineRunFrom_of_blank hblank] at h
    cases h
  · rw [lineRun_of_split back hgap hlast hblanks hreal] at h
    cases h
    exact ⟨gap, blanks, rfl, rfl, hgap, hlast, hblanks, hreal⟩

/-- All tokens in front of the leading blanks of a line are on earlier lines. -/
theorem line_lt_of_mem_front {T front back : List Token} {line : Int} (horder : T.Pairwise Token.Before)
    (hT : T = front ++ back) (hlast : ∀ z ∈ front.getLast?, z.line < line) : ∀ x ∈ front, x.line < line := by
  intro x hx
  rw [hT, List.pairwise_append] at horder
  cases hfront : front.getLast? with
  | none =>
    rw [List.getLast?_eq_none_iff.1 hfront] at hx
    cases hx
  | some z =>
    obtain ⟨init, rfl⟩ := List.getLast?_eq_some_iff.1 hfront
    have hz := hlast z hfront
    rcases List.mem_append.1 hx with hx | hx
    · have hbefore := (List.pairwise_append.1 horder.1).2.2 x hx z List.mem_cons_self
      have := hbefore.le
      have := x.line_le_endLine
      omega
    · rw [List.mem_singleton.1 hx]
      exact hz

/-- The leading blanks of a line are those that stand between the lines before and the first real token. -/
theorem leading_of_split {T front blanks after : List Token} {first : Token} (horder : T.Pairwise Token.Before)
    (hT : T = front ++ (blanks ++ first :: after)) (hfront : ∀ x ∈ front, x.line < first.line)
    (hblanks : ∀ t ∈ blanks, t.isIndentation = true ∧ t.line = first.line) (hreal : first.isIndentation = false) :
    leading T first.line = blanks.length := by
  have hnone : front.countP (fun t => t.isIndentation && t.line == first.line) = 0 := by
    rw [List.countP_eq_zero]
    intro x hx
    have := hfront x hx
    simp
    omega
  have hall : blanks.countP (fun t => t.isIndentation && t.line == first.line) = blanks.length := by
    rw [List.countP_eq_length]
    intro x hx
    simp [hblanks x hx]
  have hbehind : (first :: after).countP (fun t => t.isIndentation && t.line == first.line) = 0 := by
    obtain ⟨-, hrest, -⟩ := List.pairwise_append.1 (hT ▸ horder)
    obtain ⟨-, hline, -⟩ := List.pairwise_append.1 hrest
    rw [List.countP_eq_zero]
    intro x hx hblank
    obtain ⟨hblank, hsame⟩ := Bool.and_eq_true_iff.1 hblank
    rcases List.mem_cons.1 hx with rfl | hx
    · rw [hreal] at hblank
      cases hblank
    · -- a blank leads its line, so it is not behind a real token there
      rcases ((List.pairwise_cons.1 hline).1 x hx).indentation hblank with hother | hlt
      · rw [hreal] at hother
        cases hother
      · have := first.line_le_endLine
        have := eq_of_beq hsame
        omega
  rw [leading, hT, List.countP_append, hnone, List.countP_append, hall, hbehind]
  omega

/-- From a place that does not part them, all leading blanks of a line are measured. -/
theorem length_lineRun {T rest run after : List Token} {first : Token} (horder : T.Pairwise Token.Before)
    (h : Uncut T rest) (hline : lineRun rest = (run, first :: after)) (hrun : run ≠ []) :
    run.length = leading T first.line := by
  obtain ⟨passed, hT, hcut⟩ := h
  obtain ⟨gap, blanks, rfl, rfl, hgap, hlast, hblanks, hreal⟩ := split_of_lineRun hline
  rw [← List.append_assoc] at hT
  obtain ⟨-, -, hfront⟩ := List.pairwise_append.1 (hT ▸ horder)
  obtain ⟨y, more, rfl⟩ := List.exists_cons_of_ne_nil (show blanks ≠ [] by simpa using hrun)
  obtain ⟨hy, hyline⟩ := hblanks y List.mem_cons_self
  have hearlier : ∀ x ∈ passed ++ gap, x.line < first.line := by
    refine line_lt_of_mem_front horder hT fun z hz => ?_
    have hbefore := hfront z (List.mem_of_getLast? hz) y (by simp)
    have hle := hbefore.le
    have hend := z.line_le_endLine
    have hdiffers : z.line ≠ first.line := by
      cases hgapLast : gap.getLast? with
      | some g =>
        obtain rfl : g = z := by simpa [List.getLast?_append, hgapLast] using hz
        exact hlast g hgapLast
      | none =>
        obtain rfl := List.getLast?_eq_none_iff.1 hgapLast
        rw [List.append_nil] at hz
        rcases hbefore.indentation hy with hblank | hlt
        · rw [← hyline]
          exact hcut z hz y rfl hblank hy
        · omega
    omega
  rw [leading_of_split horder hT hearlier hblanks hreal, List.length_reverse]

/-- From a place behind the first of some blanks, the leading blanks of a line are measured, or all but that one. -/
theorem length_lineRun_of_cut {T rest run after : List Token} {x first : Token} (horder : T.Pairwise Token.Before)
    (h : Uncut T (x :: rest)) (hx : x.isIndentation = true) (hline : lineRun rest = (run, first :: after))
    (hrun : run ≠ []) :
    run.length = leading T first.line ∨ run.length + 1 = leading T first.line ∧ x.line = first.line := by
  obtain ⟨gap, blanks, rfl, rfl, hgap, hlast, hblanks, hreal⟩ := split_of_lineRun hline
  have hne : blanks ≠ [] := by simpa using hrun
  by_cases hsame : gap = [] ∧ x.line = first.line
  · obtain ⟨rfl, hsame⟩ := hsame
    -- the blank that is left out is on the line of the first token
    have hblanks' : ∀ t ∈ x :: blanks, t.isIndentation = true ∧ t.line = first.line :=
      List.forall_mem_cons.2 ⟨⟨hx, hsame⟩, hblanks⟩
    have hwhole : lineRun ([] ++ (x :: blanks ++ first :: after)) = ((x :: blanks).reverse, first :: after) :=
      lineRun_of_split after (by simp) (by simp) hblanks' hreal
    have hlength := length_lineRun horder h hwhole (by simp)
    rw [List.length_reverse, List.length_cons] at hlength
    rw [List.length_reverse]
    exact Or.inr ⟨hlength, hsame⟩
  · have hgap' : ∀ t ∈ x :: gap, t.isIndentation = true := List.forall_mem_cons.2 ⟨hx, hgap⟩
    have hlast' : ∀ t ∈ (x :: gap).getLast?, t.line ≠ first.line := by
      cases gap with
      | nil => simpa using hsame
      | cons g gap =>
        rw [List.getLast?_cons_cons]
        exact hlast
    have hwhole := lineRun_of_split after hgap' hlast' hblanks hreal
    exact Or.inl (length_lineRun horder h hwhole (by simpa using hne))

namespace Layout

/-- What keeps a block from being opened is another problem than the indentation of its lines. -/
theorem enter?_ne_indentation {l : Layout} {run : List Token} {problem : Problem}
    (h : l.enter? run = .error problem) (width found : Nat) : problem ≠ .indentation width found := by
  rintro rfl
  unfold enter? at h
  repeat' split at h
  all_goals cases h

/-- A line that neither belongs to the innermost block nor to one further out is indented. -/
theorem ne_nil_of_misfit {l : Layout} {run : List Token} (hcloses : l.closes run = false)
    (hcontinues : l.continues run = false) : run ≠ [] := by
  rintro rfl
  have hlevel : l.level? [] = some 0 := rfl
  unfold closes at hcloses
  unfold continues at hcontinues
  rw [hlevel] at hcloses hcontinues
  have hdepth : l.depth = 0 := by simpa using hcloses
  rw [hdepth] at hcontinues
  cases hcontinues

theorem found_of_misfit {l : Layout} {run : List Token} {width found : Nat}
    (h : l.misfit run = .indentation width found) : found = run.length := by
  unfold misfit at h
  split at h
  · cases h
  · cases h
    rfl

end Layout

/-! ## Reports and cursors -/

/-- A report about indentation is at a real token and tells the indentation of its line.  It may tell one blank less if
there is a report on that line among those before it. -/
def Report.Measures (T : List Token) (before : List Report) (r : Report) : Prop :=
  ∀ width found, r.problem = .indentation width found →
    ∃ t ∈ T, t.isIndentation = false ∧ r = Report.atToken t (.indentation width found) ∧
      (found = leading T t.line ∨ found + 1 = leading T t.line ∧ ∃ r' ∈ before, r'.line = some t.line)

/-- All reports about indentation tell what they should. -/
def Measured (T : List Token) (reports : List Report) : Prop :=
  ∀ (before : List Report) (r : Report), before ++ [r] <+: reports → r.Measures T before

theorem Measured.concat {T : List Token} {reports : List Report} {r : Report} (h : Measured T reports)
    (hr : r.Measures T reports) : Measured T (reports ++ [r]) := by
  intro before r' hprefix
  rcases List.prefix_concat_iff.1 hprefix with heq | hprefix
  · obtain ⟨rfl, hr'⟩ := List.append_inj' heq rfl
    rw [List.singleton_inj.1 hr']
    exact hr
  · exact h before r' hprefix

/-- A report about something else. -/
theorem Report.measures_of_ne (T : List Token) (before : List Report) {r : Report}
    (h : ∀ width found, r.problem ≠ .indentation width found) : r.Measures T before :=
  fun width found hproblem => absurd hproblem (h width found)

namespace Cursor

variable {T : List Token} {s : Cursor} {x : Token}

theorem firstOf_of_head? {ts : List Token} (h : x ∈ ts.head?) : s.firstOf ts = x := by
  obtain ⟨rest, rfl⟩ := List.head?_eq_some_iff.1 h
  rfl

/-- If the token is on the line of the next real token, there is a report on that line. -/
def Told (s : Cursor) (x : Token) : Prop :=
  ∀ t ∈ (lineRun s.rest).2.head?, x.line = t.line → ∃ r ∈ s.reports, r.line = some t.line

/-- Reading within a line: the cursor parts no indentation. -/
structure Clear (T : List Token) (s : Cursor) : Prop where
  uncut : Uncut T s.rest
  measured : Measured T s.reports

/-- Reading in front of a line: the cursor parts no indentation, or it is behind the first blank of some. -/
structure Resumed (T : List Token) (s : Cursor) : Prop where
  place : Uncut T s.rest ∨ ∃ x, x.isIndentation = true ∧ Uncut T (x :: s.rest) ∧ s.Told x
  measured : Measured T s.reports

/-- Reading behind an error: if there is indentation in front of the cursor, the error is on its line. -/
structure Stopped (T : List Token) (s : Cursor) : Prop extends Clear T s where
  told : ∀ x ∈ s.rest.head?, x.isIndentation = true → s.Told x

/-- Reading in front of a line of the innermost block, or of one that does not fit. -/
structure Facing (T : List Token) (s : Cursor) : Prop extends Resumed T s where
  line : (lineRun s.rest).2 ≠ []
  here : s.layout.closes (lineRun s.rest).1 = false

theorem Clear.resumed (h : s.Clear T) : s.Resumed T :=
  ⟨.inl h.uncut, h.measured⟩

theorem Resumed.split (h : s.Resumed T) : ∃ passed, T = passed ++ s.rest := by
  rcases h.place with ⟨passed, hT, -⟩ | ⟨x, -, ⟨passed, hT, -⟩, -⟩
  · exact ⟨passed, hT⟩
  · exact ⟨passed ++ [x], by simpa using hT⟩

/-- With a real token under the cursor no indentation is parted. -/
theorem Resumed.clear (h : s.Resumed T) (hreal : ∀ x ∈ s.rest.head?, x.isIndentation = false) : s.Clear T := by
  obtain ⟨passed, hT⟩ := h.split
  exact ⟨uncut_of_real_head passed hT hreal, h.measured⟩

theorem Clear.complain (h : s.Clear T) (t : Token) {problem : Problem}
    (hproblem : ∀ width found, problem ≠ .indentation width found) : (s.complain t problem).Clear T :=
  ⟨h.uncut, h.measured.concat (Report.measures_of_ne T _ hproblem)⟩

/-- Giving up at the token under the cursor. -/
theorem Clear.stopped_complain (h : s.Clear T) {problem : Problem}
    (hproblem : ∀ width found, problem ≠ .indentation width found) : (s.complain s.current problem).Stopped T := by
  refine ⟨h.complain _ hproblem, fun x hx _ t ht hline => ?_⟩
  refine ⟨_, List.mem_append_right _ List.mem_cons_self, ?_⟩
  have hcurrent : s.current = x := firstOf_of_head? hx
  rw [hcurrent, ← hline]
  rfl

/-- Consuming a real token. -/
theorem Clear.consume (h : s.Clear T) {t : Token} {ts : List Token} (hs : s.rest = t :: ts)
    (ht : t.isIndentation = false) : (s.consume t ts).Clear T := by
  refine ⟨?_, h.measured⟩
  obtain ⟨passed, hT, -⟩ := h.uncut
  rw [hs] at hT
  unfold Cursor.consume
  simp only
  split
  · exact uncut_of_real_last passed hT ht
  · obtain ⟨skipped, hskipped⟩ := List.dropWhile_suffix (l := ts) Token.isIndentation
    refine uncut_of_real_head (passed ++ t :: skipped) ?_ fun y => isIndentation_head_dropWhile
    rw [hT, List.append_assoc, List.cons_append, hskipped]

end Cursor

/-! ## Going on after an error -/

/-- Skipping stops where it starts, or behind a real token, or in front of one. -/
theorem resume_cases (last : Int) (ts : List Token) :
    (resume last ts).2 = ts ∨ (∃ passed x, ts = passed ++ x :: (resume last ts).2 ∧ x.isIndentation = false) ∨
      ∀ y ∈ (resume last ts).2.head?, y.isIndentation = false := by
  induction ts generalizing last with
  | nil => exact .inl rfl
  | cons t ts ih =>
    have hlater : (∃ passed x, ts = passed ++ x :: (resume t.line ts).2 ∧ x.isIndentation = false) →
        ∃ passed x, t :: ts = passed ++ x :: (resume t.line ts).2 ∧ x.isIndentation = false :=
      fun ⟨passed, x, hts, hx⟩ => ⟨t :: passed, x, congrArg (t :: ·) hts, hx⟩
    unfold resume
    split
    · rename_i ht
      split
      · exact .inl rfl
      · rename_i hpassed
        rcases ih t.line with hall | hbehind | hreal
        · -- a statement follows this indentation, so it would not have been passed over
          have hopens := opensStatement_resume t.line ts
          rw [hall] at hopens
          refine absurd ?_ hpassed
          rwa [lineRun_snd, List.dropWhile_cons_of_pos ht, ← lineRun_snd]
        · exact .inr (.inl (hlater hbehind))
        · exact .inr (.inr hreal)
    · rename_i ht
      split
      · exact .inl rfl
      · rcases ih t.line with hall | hbehind | hreal
        · exact .inr (.inl ⟨[], t, by rw [hall, List.nil_append], by simpa using ht⟩)
        · exact .inr (.inl (hlater hbehind))
        · exact .inr (.inr hreal)

/-- Behind an error reading goes on in front of a line. -/
theorem Cursor.Stopped.recover {T : List Token} {s : Cursor} (h : s.Stopped T) : s.recover.Resumed T := by
  obtain ⟨passed, hT, hcut⟩ := h.uncut
  cases hrest : s.rest with
  | nil =>
    have hrecover : s.recover = { s with parens := 0 } := by
      simp [Cursor.recover, hrest]
    rw [hrecover]
    exact ⟨.inl h.uncut, h.measured⟩
  | cons t ts =>
    have hrecover : s.recover.rest = (resume t.line ts).2 ∧ s.recover.reports = s.reports := by
      simp [Cursor.recover, hrest]
    refine ⟨?_, hrecover.2 ▸ h.measured⟩
    rw [hrecover.1]
    rw [hrest] at hT
    rcases resume_cases t.line ts with hall | ⟨skipped, x, hts, hx⟩ | hreal
    · rw [hall]
      cases ht : t.isIndentation with
      | true =>
        refine .inr ⟨t, ht, hrest ▸ h.uncut, fun u hu hline => ?_⟩
        rw [hrecover.2]
        refine h.told t (by rw [hrest]; rfl) ht u ?_ hline
        rwa [hrest, lineRun_snd, List.dropWhile_cons_of_pos ht, ← lineRun_snd, ← hall, ← hrecover.1]
      | false => exact .inl (uncut_of_real_last passed hT ht)
    · refine .inl (uncut_of_real_last (passed ++ t :: skipped) ?_ hx)
      rw [hT, List.append_assoc, List.cons_append, ← hts]
    · obtain ⟨skipped, hskipped⟩ := resume_suffix t.line ts
      refine .inl (uncut_of_real_head (passed ++ t :: skipped) ?_ hreal)
      rw [hT, List.append_assoc, List.cons_append, hskipped]

/-! ## Steps -/

namespace Reading

open Step
open Cursor (Clear Resumed Stopped Facing)

variable {α β : Type} {T : List Token} {P Q R : Cursor → Prop}

/-- The step leads from cursors with `P` to cursors with `Q`, unless it is given up. -/
def Keeps (T : List Token) (P Q : Cursor → Prop) (p : Reading α) : Prop :=
  ∀ s, P s → Ends (p s) (fun _ t => Q t) (fun _ t => t.Stopped T)

theorem keeps_pure (a : α) : Keeps T P P (pure a : Reading α) :=
  fun _ h => h

theorem Keeps.bind {p : Reading α} {f : α → Reading β} (hp : Keeps T P Q p) (hf : ∀ a, Keeps T Q R (f a)) :
    Keeps T P R (p >>= f) :=
  fun s h => (hp s h).bind fun a t ht => hf a t ht

theorem Keeps.map {p : Reading α} (g : α → β) (hp : Keeps T P Q p) : Keeps T P Q (g <$> p) :=
  hp.bind fun a => keeps_pure (g a)

theorem Keeps.resumed {p : Reading α} (hp : Keeps T P (Clear T) p) : Keeps T P (Resumed T) p :=
  fun s h => (hp s h).mono (fun _ _ ht => ht.resumed) fun _ _ ht => ht

theorem keeps_accept? {p : Kind → Bool} (hp : ∀ k, p k = true → k.isIndentation = false) :
    Keeps T (Clear T) (Clear T) (accept? p) := by
  intro s h
  cases haccept : accept? p s with
  | ok r u =>
    cases r with
    | none =>
      rw [eq_of_accept?_none haccept]
      exact h
    | some t =>
      obtain ⟨ts, hs, ht, rfl⟩ := rest_of_accept?_some haccept
      exact h.consume hs (hp _ ht)
  | error e u => exact absurd haccept accept?_ne_error

/-- Steps within a line part no indentation. -/
theorem composes_keeps : Composes fun {α} (p : Reading α) => Keeps T (Clear T) (Clear T) p where
  pure a := keeps_pure a
  bind hp hf := hp.bind hf
  check := fun _ _ h => h
  accept? hp := keeps_accept? hp
  abandon := fun _ _ h => h.stopped_complain nofun
  limitCount := by
    intro count what s h
    unfold limitCount
    split
    · exact h.complain _ nofun
    · exact h
  misassigned := fun mark _ h => h.complain mark nofun

theorem Keeps.recovering {p : Reading α} (hp : Keeps T P (Resumed T) p) (fallback : α) :
    Keeps T P (Resumed T) (recovering p fallback) := by
  intro s h
  unfold Reading.recovering
  split
  · rename_i a t ht
    exact (hp s h).value_of_ok ht
  · rename_i e t ht
    exact ((hp s h).fault_of_error ht).recover

/-! ## Lines and blocks -/

theorem keeps_endStatement : Keeps T (Resumed T) (Resumed T) endStatement := by
  intro s h
  unfold endStatement
  split
  · exact h
  · rename_i t ts hs
    split
    · rename_i hsame
      have hreal : ∀ x ∈ s.rest.head?, x.isIndentation = false := by
        rw [hs]
        rintro x ⟨⟩
        simpa using (Bool.and_eq_true_iff.1 hsame).1
      have hcurrent : s.current = t := Cursor.firstOf_of_head? (by rw [hs]; rfl)
      rw [← hcurrent]
      exact (h.clear hreal).stopped_complain nofun
    · exact h

theorem Keeps.items {item : Reading (Option α)} (hitem : Keeps T (Facing T) (Resumed T) item) (fuel : Nat) :
    Keeps T (Resumed T) (Resumed T) (items item fuel) := by
  induction fuel with
  | zero => exact keeps_pure []
  | succ fuel ih =>
    intro s h
    unfold Reading.items
    simp only
    split
    · exact h
    · rename_i hmore
      rw [Bool.not_eq_true, Bool.or_eq_false_iff] at hmore
      have hfacing : s.Facing T := ⟨h, List.isEmpty_eq_false_iff.1 hmore.1, hmore.2⟩
      exact hitem.bind (fun first => ih.bind fun more => keeps_pure _) s hfacing

theorem Keeps.within {p : Reading α} (hp : Keeps T (Resumed T) (Resumed T) p) (inner : Layout) :
    Keeps T (Resumed T) (Resumed T) (within inner p) := by
  intro s h
  have hinner := hp { s with layout := inner } ⟨h.place, h.measured⟩
  unfold Reading.within
  split
  · rename_i a t ht
    have ht := hinner.value_of_ok ht
    exact ⟨ht.place, ht.measured⟩
  · rename_i e t ht
    have ht := hinner.fault_of_error ht
    exact ⟨⟨ht.uncut, ht.measured⟩, ht.told⟩

theorem Keeps.indented {item : Reading (Option α)} (hitem : Keeps T (Facing T) (Resumed T) item) (fuel : Nat) :
    Keeps T (Clear T) (Resumed T) (indented fuel item) := by
  intro s h
  unfold Reading.indented
  simp only
  split
  · rename_i problem henter
    refine ⟨h.complain _ (Layout.enter?_ne_indentation henter), fun x hx _ t ht _ => ?_⟩
    refine ⟨_, List.mem_append_right _ List.mem_cons_self, ?_⟩
    have hfirst : s.firstOf (lineRun s.rest).2 = t := Cursor.firstOf_of_head? ht
    rw [hfirst]
    rfl
  · exact (hitem.items fuel).within _ s h.resumed

/-- An `else` that is consumed leads into its line. -/
theorem ends_acceptElse {s : Cursor} (h : s.Resumed T) :
    Ends (acceptElse s) (fun found t => t.Resumed T ∧ (found = true → t.Clear T)) (fun _ t => t.Stopped T) := by
  unfold acceptElse
  simp only
  split
  · exact ⟨h, nofun⟩
  · rename_i t ts hrun
    split
    · rename_i helse
      obtain ⟨passed, hT⟩ := h.split
      obtain ⟨skipped, hskipped⟩ := lineRun_snd_suffix s.rest
      rw [hrun] at hskipped
      have hreal : t.isIndentation = false := by
        rw [Token.isIndentation, eq_of_beq (Bool.and_eq_true_iff.1 helse).1]
        rfl
      have hclear : Uncut T ts := by
        refine uncut_of_real_last (passed ++ skipped) ?_ hreal
        rw [hT, List.append_assoc, hskipped]
      exact ⟨⟨.inl hclear, h.measured⟩, fun _ => ⟨hclear, h.measured⟩⟩
    · exact ⟨h, nofun⟩

/-- What is told of a line that does not fit. -/
theorem measures_misfit (horder : T.Pairwise Token.Before) {s : Cursor} (h : s.Facing T)
    (hmisfit : s.layout.continues (lineRun s.rest).1 = false) {first : Token} {after : List Token}
    (hrun : (lineRun s.rest).2 = first :: after) :
    (Report.atToken first (s.layout.misfit (lineRun s.rest).1)).Measures T s.reports := by
  intro width found hproblem
  have hfound := Layout.found_of_misfit hproblem
  have hline : lineRun s.rest = ((lineRun s.rest).1, first :: after) := by rw [← hrun]
  have hne := Layout.ne_nil_of_misfit h.here hmisfit
  have hmem : first ∈ T := by
    obtain ⟨passed, hT⟩ := h.split
    rw [hT]
    refine List.mem_append_right passed ((lineRun_snd_suffix s.rest).subset ?_)
    rw [hrun]
    exact List.mem_cons_self
  obtain ⟨-, -, -, -, -, -, -, hreal⟩ := split_of_lineRun hline
  refine ⟨first, hmem, hreal, congrArg (Report.atToken first) hproblem, ?_⟩
  rw [hfound]
  rcases h.place with huncut | ⟨x, hx, huncut, htold⟩
  · exact .inl (length_lineRun horder huncut hline hne)
  · rcases length_lineRun_of_cut horder huncut hx hline hne with hall | ⟨hless, hsame⟩
    · exact .inl hall
    · exact .inr ⟨hless, htold first (by rw [hrun]; rfl) hsame⟩

theorem keeps_beginLine (horder : T.Pairwise Token.Before) : Keeps T (Facing T) (Clear T) beginLine := by
  intro s h
  obtain ⟨first, after, hrun⟩ := List.exists_cons_of_ne_nil h.line
  have hreal : ∀ x ∈ (lineRun s.rest).2.head?, x.isIndentation = false := by
    intro x hx
    rw [lineRun_snd] at hx
    exact isIndentation_head_dropWhile hx
  have huncut : Uncut T (lineRun s.rest).2 := by
    obtain ⟨passed, hT⟩ := h.split
    obtain ⟨skipped, hskipped⟩ := lineRun_snd_suffix s.rest
    refine uncut_of_real_head (passed ++ skipped) ?_ hreal
    rw [hT, List.append_assoc, hskipped]
  unfold beginLine
  simp only
  split
  · exact ⟨huncut, h.measured⟩
  · rename_i hmisfit
    refine ⟨⟨huncut, h.measured.concat ?_⟩, fun x hx hblank => ?_⟩
    · have hcurrent : Cursor.current { s with rest := (lineRun s.rest).2 } = first :=
        Cursor.firstOf_of_head? (by rw [hrun]; rfl)
      rw [hcurrent]
      exact measures_misfit horder h (by simpa using hmisfit) hrun
    · rw [hreal x hx] at hblank
      cases hblank

/-! ## Statements -/

section Statements

variable {item : Reading (Stmt Unit)}

theorem keeps_expect {kind : Kind} (hkind : kind.isIndentation = false) (what : String) :
    Keeps T (Clear T) (Clear T) (expect kind what) :=
  composes_keeps.expect hkind what

theorem keeps_expression (fuel : Nat) : Keeps T (Clear T) (Clear T) (expression fuel) :=
  composes_keeps.expression fuel

theorem Keeps.block (hitem : Keeps T (Facing T) (Resumed T) item) (fuel : Nat) :
    Keeps T (Clear T) (Resumed T) (block fuel item) :=
  (hitem.map some).indented fuel

theorem Keeps.routine (hitem : Keeps T (Facing T) (Resumed T) item) (fuel : Nat) (what : String) :
    Keeps T (Clear T) (Resumed T) (routine fuel item what) := by
  refine (keeps_expect rfl _).bind fun name => (composes_keeps.enclosedParams fuel what).bind fun params => ?_
  refine composes_keeps.returnType.bind fun type => (keeps_expect rfl _).bind fun _ => ?_
  exact (hitem.block fuel).bind fun body => keeps_pure _

theorem Keeps.method (horder : T.Pairwise Token.Before) (hitem : Keeps T (Facing T) (Resumed T) item) (fuel : Nat) :
    Keeps T (Facing T) (Resumed T) (method fuel item) := by
  refine Keeps.recovering (Keeps.map some ?_) none
  exact (keeps_beginLine horder).bind fun _ => (keeps_expect rfl _).bind fun _ => hitem.routine fuel "method"

theorem Keeps.classDef (horder : T.Pairwise Token.Before) (hitem : Keeps T (Facing T) (Resumed T) item) (fuel : Nat) :
    Keeps T (Clear T) (Resumed T) (classDef fuel item) := by
  refine (keeps_expect rfl _).bind fun name => composes_keeps.superclass.bind fun parent => ?_
  refine (keeps_expect rfl _).bind fun _ => ?_
  exact ((hitem.method horder fuel).indented fuel).bind fun methods => keeps_pure _

theorem Keeps.otherwise {next : Reading (Stmt Unit)} (hitem : Keeps T (Facing T) (Resumed T) item)
    (hnext : Keeps T (Clear T) (Resumed T) next) (limit : Nat) :
    Keeps T (Resumed T) (Resumed T) (otherwise limit item next) := by
  have halternative : Keeps T (Clear T) (Resumed T) (alternative limit item next) := by
    refine (keeps_accept? fun k hk => by rw [eq_of_beq hk]; rfl).bind fun r => ?_
    cases r with
    | some word => exact hnext
    | none => exact (keeps_expect rfl _).bind fun _ => (hitem.block limit).map Stmt.block
  intro s h
  refine (ends_acceptElse h).bind fun found t ht => ?_
  cases found with
  | false => exact ht.1
  | true => exact halternative.map some t (ht.2 rfl)

theorem Keeps.branch (hitem : Keeps T (Facing T) (Resumed T) item) (limit fuel : Nat) :
    Keeps T (Clear T) (Resumed T) (branch limit item fuel) := by
  induction fuel with
  | zero => exact (composes_keeps.abandon _).resumed
  | succ fuel ih =>
    refine (keeps_expression limit).bind fun condition => (keeps_expect rfl _).bind fun _ => ?_
    refine (hitem.block limit).bind fun whenTrue => ?_
    exact (hitem.otherwise ih limit).bind fun whenFalse => keeps_pure _

theorem Keeps.loop (hitem : Keeps T (Facing T) (Resumed T) item) (fuel : Nat) :
    Keeps T (Clear T) (Resumed T) (loop fuel item) := by
  refine (keeps_expression fuel).bind fun condition => (keeps_expect rfl _).bind fun _ => ?_
  exact (hitem.block fuel).bind fun body => keeps_pure _

theorem Keeps.statementFrom (horder : T.Pairwise Token.Before) (hitem : Keeps T (Facing T) (Resumed T) item)
    (fuel : Nat) (t : Token) : Keeps T (Clear T) (Resumed T) (statementFrom fuel item t) := by
  unfold Reading.statementFrom
  split
  · exact hitem.classDef horder fuel
  · exact (hitem.routine fuel "function").map Stmt.define
  · exact hitem.branch fuel fuel
  · exact ((keeps_expression fuel).map Stmt.print).resumed
  · exact (composes_keeps.givenBack (fun _ h => h) fuel t).resumed
  · exact hitem.loop fuel
  · exact (hitem.block fuel).map Stmt.block
  · exact (composes_keeps.assignment fuel).resumed

theorem Keeps.statementLine (horder : T.Pairwise Token.Before) (hitem : Keeps T (Facing T) (Resumed T) item)
    (fuel : Nat) : Keeps T (Facing T) (Resumed T) (statementLine fuel item) := by
  refine (keeps_beginLine horder).bind fun _ => Keeps.bind ?_ fun stmt =>
    keeps_endStatement.bind fun _ => keeps_pure stmt
  refine (keeps_accept? fun k hk => ?_).bind fun r => ?_
  · cases k <;> first | rfl | cases hk
  · cases r with
    | none => exact (composes_keeps.assignment fuel).resumed
    | some t => exact hitem.statementFrom horder fuel t

end Statements

theorem keeps_declaration (horder : T.Pairwise Token.Before) (fuel : Nat) :
    Keeps T (Facing T) (Resumed T) (declaration fuel) := by
  induction fuel with
  | zero => exact fun s h => h.toResumed
  | succ fuel ih => exact (Keeps.statementLine horder ih (fuel + 1)).recovering _

theorem keeps_program (horder : T.Pairwise Token.Before) (fuel : Nat) :
    Keeps T (Resumed T) (Resumed T) (program fuel) :=
  ((keeps_declaration horder fuel).map some).items fuel

/-- **Indentation is measured in full, up to one blank behind an error.**  Every report about the indentation of a line
is at a real token of the text, and the width that it tells is the number of blanks that lead the line of that token.
It may be one less, but only if something has been reported on that line already: then the skipping behind that error
came to rest behind the first of the blanks. -/
theorem measured_of_read (argumentLimit : Nat) (source : String) {before after : List Report} {r : Report}
    {width found : Nat}
    (hreports : (Program.read argumentLimit (Token.scan source).stream).reports = before ++ r :: after)
    (hproblem : r.problem = .indentation width found) :
    ∃ t ∈ (Token.scan source).stream.tokens, t.isIndentation = false ∧
      r = Report.atToken t (.indentation width found) ∧
      (found = leading (Token.scan source).stream.tokens t.line ∨
        found + 1 = leading (Token.scan source).stream.tokens t.line ∧ ∃ r' ∈ before, r'.line = some t.line) := by
  obtain ⟨statements, s, hread, hprogram, -, -⟩ := program_ends argumentLimit (Token.scan source).stream
  have hstart : (Cursor.start argumentLimit (Token.scan source).stream).Resumed (Token.scan source).stream.tokens :=
    ⟨.inl ⟨[], rfl, by simp⟩, fun before r hprefix => by simp [Cursor.start] at hprefix⟩
  have hlines := (keeps_program (Token.before_scan source) _ _ hstart).value_of_ok hread
  rw [hprogram] at hreports
  have hprefix : before ++ [r] <+: s.reports := ⟨after, by simpa using hreports.symm⟩
  exact hlines.measured before r hprefix width found hproblem

/-- A line that is indented without reason. -/
def deepText : String :=
  "print a\n  print b"

theorem measured_of_read_deepText :
    (Program.read 255 (Token.scan deepText).stream).reports =
      [⟨.compile, some 2, .atLexeme "print", .indentation 0 2⟩] ∧
    ∃ t ∈ (Token.scan deepText).stream.tokens, t.isIndentation = false ∧
      2 = leading (Token.scan deepText).stream.tokens t.line := by
  have hreports : (Program.read 255 (Token.scan deepText).stream).reports =
      [⟨.compile, some 2, .atLexeme "print", .indentation 0 2⟩] := by
    decide +kernel
  have hsplit : (Program.read 255 (Token.scan deepText).stream).reports =
      [] ++ ⟨.compile, some 2, .atLexeme "print", .indentation 0 2⟩ :: [] := hreports
  obtain ⟨t, ht, hreal, -, hall | ⟨-, r, hr, -⟩⟩ := measured_of_read 255 deepText hsplit rfl
  · exact ⟨hreports, t, ht, hreal, hall⟩
  · cases hr

/-- A colon is missing, and the next line is indented by two blanks. -/
def cutText : String :=
  "if a\n  print b"

/-- The error is noticed at the first blank of the second line.  That one is skipped, and only one of the two blanks is
measured. -/
theorem cut_cutText :
    ((Program.read 255 (Token.scan cutText).stream).reports.map fun r => (r.line, r.place, r.problem)) =
      [(some 2, .atLexeme " ", .expected "':' after if condition"), (some 2, .atLexeme "print", .indentation 0 1)] ∧
    leading (Token.scan cutText).stream.tokens 2 = 2 := by
  decide +kernel

end Reading
end Offside
