import Mathlib.Data.List.Induction
import Mathlib.Data.List.TakeWhile
import Offside.Layout

/-!
# The theory of layout

What the indentation of a line is, as a place in the text, and to which of the open blocks it assigns the
line.

* `lineRun_of_split`, `lineRun_cases` — the indentation in front of the next real token;
* `Layout.Opens`, `Layout.Holds` — the blocks that may be opened, and the indentation of their lines;
* `Layout.Nested` — layouts that come about by opening blocks one inside the other;
* `Layout.enter?_eq_ok_iff`, `Layout.continues_iff`, `Layout.closes_of_holds` — what the functions on layouts
  decide, in these terms;
* `Layout.enter?_iff_kinds`, `Layout.holds_iff_kinds` — the same by the kinds of blanks, if each has the character of its
  kind (`Token.IsBlank`), as in every text that is scanned.
-/

set_option autoImplicit false

namespace Offside

open Token (Kind)

/-! ## The indentation of a line -/

theorem lineRunFrom_snd (run ts : List Token) :
    (lineRunFrom run ts).2 = ts.dropWhile Token.isIndentation := by
  induction ts generalizing run with
  | nil => rfl
  | cons t ts ih =>
    unfold lineRunFrom
    by_cases ht : t.isIndentation
    · rw [if_pos ht, List.dropWhile_cons_of_pos ht]
      split
      · exact ih _
      · exact ih _
    · rw [if_neg ht, List.dropWhile_cons_of_neg ht]

/-- Measuring the indentation of a line leads to its first real token. -/
theorem lineRun_snd (ts : List Token) : (lineRun ts).2 = ts.dropWhile Token.isIndentation :=
  lineRunFrom_snd [] ts

theorem lineRun_snd_suffix (ts : List Token) : (lineRun ts).2 <:+ ts := by
  rw [lineRun_snd]
  exact List.dropWhile_suffix _

theorem lineRun_snd_eq_nil_iff (ts : List Token) :
    (lineRun ts).2 = [] ↔ ∀ t ∈ ts, t.isIndentation = true := by
  rw [lineRun_snd, List.dropWhile_eq_nil_iff]

theorem lineRunFrom_of_sameLine {run : List Token} (before : List Token) {first : Token}
    (rest : List Token) (hrun : ∀ t ∈ run, t.isIndentation = true ∧ t.line = first.line)
    (hbefore : ∀ t ∈ before, t.line = first.line) (hfirst : first.isIndentation = false) :
    lineRunFrom before (run ++ first :: rest) = (run.reverse ++ before, first :: rest) := by
  induction run generalizing before with
  | nil =>
    have hsame : (before.head?.all fun r => r.line == first.line) = true := by
      cases before with
      | nil => rfl
      | cons b bs => simpa using hbefore b List.mem_cons_self
    simp [lineRunFrom, hfirst, hsame]
  | cons t run ih =>
    obtain ⟨ht, hrun⟩ := List.forall_mem_cons.1 hrun
    have hsame : (before.head?.all fun r => r.line == t.line) = true := by
      cases before with
      | nil => rfl
      | cons b bs => simp [hbefore b List.mem_cons_self, ht.2]
    have hnext := ih (t :: before) hrun (List.forall_mem_cons.2 ⟨ht.2, hbefore⟩)
    simp [lineRunFrom, ht.1, hsame, hnext]

/-- Indentation that ends on another line is dropped. -/
theorem lineRunFrom_of_otherLine {run before : List Token} {first : Token} {rest : List Token}
    (hrun : ∀ t ∈ run, t.isIndentation = true ∧ t.line = first.line)
    (hbefore : ∀ t ∈ before.head?, t.line ≠ first.line) (hfirst : first.isIndentation = false) :
    lineRunFrom before (run ++ first :: rest) = (run.reverse, first :: rest) := by
  cases before with
  | nil => simpa using lineRunFrom_of_sameLine [] rest hrun (by simp) hfirst
  | cons b bs =>
    have hb : b.line ≠ first.line := hbefore b (by simp)
    cases run with
    | nil => simp [lineRunFrom, hfirst, hb]
    | cons t run =>
      obtain ⟨ht, hrun⟩ := List.forall_mem_cons.1 hrun
      have hnext := lineRunFrom_of_sameLine [t] rest hrun (by simpa using ht.2) hfirst
      have hother : (b.line == t.line) = false := by simpa [ht.2] using hb
      simp [lineRunFrom, ht.1, hother, hnext]

/-- Measuring goes through indentation token by token and remembers the last one. -/
theorem lineRunFrom_append {gap : List Token} (hgap : ∀ t ∈ gap, t.isIndentation = true)
    (before ts : List Token) :
    ∃ before', before'.head? = gap.getLast?.or before.head? ∧
      lineRunFrom before (gap ++ ts) = lineRunFrom before' ts := by
  induction gap generalizing before with
  | nil => exact ⟨before, rfl, rfl⟩
  | cons t gap ih =>
    obtain ⟨ht, hgap⟩ := List.forall_mem_cons.1 hgap
    have hlast : (t :: gap).getLast? = gap.getLast?.or (some t) := by
      cases gap with
      | nil => rfl
      | cons u gap => simp [List.getLast?_eq_some_getLast]
    by_cases hsame : (before.head?.all fun r => r.line == t.line) = true
    · obtain ⟨before', hhead, heq⟩ := ih hgap (t :: before)
      refine ⟨before', ?_, ?_⟩
      · rw [hhead, hlast, Option.or_assoc]
        rfl
      · simpa [lineRunFrom, ht, hsame] using heq
    · obtain ⟨before', hhead, heq⟩ := ih hgap [t]
      refine ⟨before', ?_, ?_⟩
      · rw [hhead, hlast, Option.or_assoc]
        rfl
      · simpa [lineRunFrom, ht, hsame] using heq

/-- The indentation of a line is what stands on the line in front of its first real token. -/
theorem lineRun_of_split {gap run : List Token} {first : Token} (rest : List Token)
    (hgap : ∀ t ∈ gap, t.isIndentation = true) (hlast : ∀ t ∈ gap.getLast?, t.line ≠ first.line)
    (hrun : ∀ t ∈ run, t.isIndentation = true ∧ t.line = first.line)
    (hfirst : first.isIndentation = false) :
    lineRun (gap ++ (run ++ first :: rest)) = (run.reverse, first :: rest) := by
  obtain ⟨before, hhead, heq⟩ := lineRunFrom_append hgap [] (run ++ first :: rest)
  unfold lineRun
  rw [heq]
  refine lineRunFrom_of_otherLine hrun ?_ hfirst
  rw [hhead]
  simpa using hlast

/-- A line that is next has no indentation in front of its first token. -/
theorem lineRun_of_real {t : Token} (ht : t.isIndentation = false) (rest : List Token) :
    lineRun (t :: rest) = ([], t :: rest) := by
  simp [lineRun, lineRunFrom, ht]

/-- Indentation up to the end belongs to no line. -/
theorem lineRunFrom_of_blank {ts : List Token} (h : ∀ t ∈ ts, t.isIndentation = true)
    (before : List Token) : lineRunFrom before ts = ([], []) := by
  induction ts generalizing before with
  | nil => rfl
  | cons t ts ih =>
    obtain ⟨ht, h⟩ := List.forall_mem_cons.1 h
    unfold lineRunFrom
    rw [if_pos ht]
    split
    · exact ih h _
    · exact ih h _

/-- Indentation ends with a stretch that stands on a given line, which may be empty. -/
theorem exists_run (blanks : List Token) (line : Int) :
    ∃ gap run, blanks = gap ++ run ∧ (∀ t ∈ gap.getLast?, t.line ≠ line) ∧ ∀ t ∈ run, t.line = line := by
  induction blanks using List.reverseRecOn with
  | nil => exact ⟨[], [], rfl, by simp, by simp⟩
  | append_singleton blanks t ih =>
    by_cases ht : t.line = line
    · obtain ⟨gap, run, rfl, hgap, hrun⟩ := ih
      refine ⟨gap, run ++ [t], List.append_assoc .., hgap, ?_⟩
      exact List.forall_mem_append.2 ⟨hrun, by simpa using ht⟩
    · exact ⟨blanks ++ [t], [], (List.append_nil _).symm, by simpa using ht, by simp⟩

/-- Every text is indentation to its end, or comes to a line. -/
theorem lineRun_cases (ts : List Token) :
    (∀ t ∈ ts, t.isIndentation = true) ∨
    ∃ gap run first rest, ts = gap ++ (run ++ first :: rest) ∧
      (∀ t ∈ gap, t.isIndentation = true) ∧ (∀ t ∈ gap.getLast?, t.line ≠ first.line) ∧
      (∀ t ∈ run, t.isIndentation = true ∧ t.line = first.line) ∧ first.isIndentation = false := by
  cases hrest : ts.dropWhile Token.isIndentation with
  | nil => exact Or.inl (List.dropWhile_eq_nil_iff.1 hrest)
  | cons first rest =>
    obtain ⟨gap, run, hsplit, hlast, hline⟩ := exists_run (ts.takeWhile Token.isIndentation) first.line
    have hblank : ∀ t ∈ gap ++ run, t.isIndentation = true := by
      rw [← hsplit]
      exact fun t ht => List.mem_takeWhile_imp ht
    obtain ⟨hgap, hrun⟩ := List.forall_mem_append.1 hblank
    refine Or.inr ⟨gap, run, first, rest, ?_, hgap, hlast, fun t ht => ⟨hrun t ht, hline t ht⟩, ?_⟩
    · rw [← List.append_assoc, ← hsplit, ← hrest]
      exact List.takeWhile_append_dropWhile.symm
    · have := List.head_dropWhile_not (p := Token.isIndentation) (l := ts) (by simp [hrest])
      simpa [hrest] using this

/-- Only a line has indentation. -/
theorem lineRun_snd_ne_nil {ts : List Token} (h : (lineRun ts).1 ≠ []) : (lineRun ts).2 ≠ [] := by
  intro hnil
  rw [lineRun, lineRunFrom_of_blank ((lineRun_snd_eq_nil_iff ts).1 hnil)] at h
  exact h rfl

/-! ## Open blocks -/

namespace Layout

/-- The layout `inner` has one block more: its lines are indented by one permitted step more, with the
character of the blocks around it. -/
inductive Opens (l : Layout) : Layout → Prop
  | intro {blank : String} {step : Nat} : step ∈ steps blank →
      (l.depth ≠ 0 → l.blank = some blank) → Opens l ⟨some blank, (l.width + step) :: l.widths⟩

/-- The indentation of a line of the innermost block: as many blanks as the block is wide, all of its
character. -/
structure Holds (l : Layout) (run : List Token) : Prop where
  length : run.length = l.width
  blank : ∀ t ∈ run, some t.lexeme = l.blank

theorem Holds.reverse {l : Layout} {run : List Token} (h : l.Holds run.reverse) : l.Holds run :=
  ⟨by rw [← List.length_reverse, h.length], fun t ht => h.blank t (List.mem_reverse.2 ht)⟩

/-- Layouts that come about by opening blocks one inside the other. -/
inductive Nested : Layout → Prop
  | top : Nested top
  | opens {l inner : Layout} : Nested l → l.Opens inner → Nested inner

theorem steps_pos {blank : String} {step : Nat} (h : step ∈ steps blank) : 0 < step := by
  unfold steps at h
  split at h
  · simp only [List.mem_singleton] at h
    omega
  · simp only [List.mem_cons, List.not_mem_nil, or_false] at h
    omega

theorem Nested.width_pos {l : Layout} (h : Nested l) (hd : l.depth ≠ 0) : 0 < l.width := by
  cases h with
  | top => exact absurd rfl hd
  | opens _ ho =>
    obtain ⟨hstep, _⟩ := ho
    exact Nat.lt_of_lt_of_le (steps_pos hstep) (Nat.le_add_left _ _)

/-- The innermost block is the widest. -/
theorem Nested.le_width {l : Layout} (h : Nested l) : ∀ w ∈ l.widths, w ≤ l.width := by
  induction h with
  | top => simp [Layout.top]
  | opens _ ho ih =>
    obtain ⟨_, _⟩ := ho
    intro w hw
    rcases List.mem_cons.1 hw with rfl | hw
    · exact Nat.le_refl _
    · exact Nat.le_trans (ih w hw) (Nat.le_add_right _ _)

/-! ## The block of a line -/

/-- A line with indentation belongs to the block of its width, if the character is that of the blocks. -/
theorem level?_eq_some_iff {l : Layout} {run : List Token} {level : Nat} (hrun : run ≠ []) :
    l.level? run = some level ↔
      (∀ t ∈ run, some t.lexeme = l.blank) ∧ l.widths.dropWhile (· != run.length) ≠ [] ∧
        (l.widths.dropWhile (· != run.length)).length = level := by
  have hempty : run.isEmpty = false := List.isEmpty_eq_false_iff.2 hrun
  unfold level?
  rw [hempty]
  simp only [Bool.false_eq_true, if_false, List.all_eq_true, beq_iff_eq]
  split
  · rename_i hblank
    cases l.widths.dropWhile (· != run.length) with
    | nil => simp
    | cons w ws => simpa using fun _ => hblank
  · rename_i hblank
    simp [hblank]

theorem holds_of_continues {l : Layout} {run : List Token} (h : l.continues run = true) :
    l.Holds run := by
  have hlevel : l.level? run = some l.depth := eq_of_beq h
  by_cases hrun : run = []
  · subst hrun
    have hdepth : l.widths = [] := List.length_eq_zero_iff.1 (Option.some.inj hlevel).symm
    exact ⟨by simp [width, hdepth], by simp⟩
  · obtain ⟨hblank, hne, hlen⟩ := (level?_eq_some_iff hrun).1 hlevel
    refine ⟨?_, hblank⟩
    have hall := (List.dropWhile_suffix (l := l.widths) (· != run.length)).eq_of_length hlen
    unfold width
    cases hw : l.widths with
    | nil => rw [hw] at hne; exact absurd rfl hne
    | cons w ws =>
      rw [hw] at hall
      by_cases hwr : w = run.length
      · simp [hwr]
      · have := congrArg List.length hall
        rw [List.dropWhile_cons_of_pos (by simpa using hwr)] at this
        have hle := (List.dropWhile_suffix (l := ws) (· != run.length)).length_le
        simp only [List.length_cons] at this
        omega

theorem continues_of_holds {l : Layout} {run : List Token} (h : l.Holds run)
    (hpos : l.depth ≠ 0 → run ≠ []) : l.continues run = true := by
  show (l.level? run == some l.depth) = true
  rw [beq_iff_eq]
  by_cases hrun : run = []
  · subst hrun
    have hdepth : l.depth = 0 := Classical.byContradiction fun hd => hpos hd rfl
    rw [hdepth]
    rfl
  · refine (level?_eq_some_iff hrun).2 ⟨h.blank, ?_⟩
    have hlen := h.length
    have hrunpos := List.length_pos_iff.2 hrun
    unfold width at hlen
    unfold depth
    cases hw : l.widths with
    | nil => rw [hw] at hlen; simp only [List.headD_nil] at hlen; omega
    | cons w ws =>
      rw [hw] at hlen
      have hstop : (w != run.length) = false := by simpa using hlen.symm
      simp [hstop]

/-- The lines of the innermost block are those with its indentation. -/
theorem continues_iff {l : Layout} {run : List Token} (hl : l.Nested) :
    l.continues run = true ↔ l.Holds run := by
  refine ⟨holds_of_continues, fun h => continues_of_holds h fun hd => ?_⟩
  have := hl.width_pos hd
  rw [← h.length] at this
  exact List.length_pos_iff.1 this

/-- No line belongs both to the innermost block and to one further out. -/
theorem closes_of_continues {l : Layout} {run : List Token} (h : l.continues run = true) :
    l.closes run = false := by
  have hlevel : l.level? run = some l.depth := eq_of_beq h
  unfold closes
  rw [hlevel]
  simp

theorem closes_iff {l : Layout} {run : List Token} :
    l.closes run = true ↔ ∃ level, l.level? run = some level ∧ level < l.depth := by
  unfold closes
  split
  · rename_i level h
    simp [h]
  · rename_i h
    simp [h]

/-- Opening a block leaves every line with its block unless the line has the width of the new one. -/
theorem level?_of_opens {l inner : Layout} {run : List Token} {level : Nat} (ho : l.Opens inner)
    (hrun : run ≠ []) (hwidth : run.length < inner.width) (h : l.level? run = some level) :
    inner.level? run = some level := by
  cases ho with
  | @intro blank step _ hsame =>
    obtain ⟨hblank, hne, hlen⟩ := (level?_eq_some_iff hrun).1 h
    have hd : l.depth ≠ 0 := by
      intro hd
      rw [List.length_eq_zero_iff.1 hd] at hne
      exact hne rfl
    have hskip : (l.width + step != run.length) = true := by
      rw [bne_iff_ne]
      exact Nat.ne_of_gt hwidth
    refine (level?_eq_some_iff hrun).2 ⟨?_, ?_⟩
    · rw [← hsame hd]
      exact hblank
    · have hdrop : ((l.width + step) :: l.widths).dropWhile (· != run.length) =
          l.widths.dropWhile (· != run.length) := List.dropWhile_cons_of_pos hskip
      rw [hdrop]
      exact ⟨hne, hlen⟩

theorem Opens.width_lt {l inner : Layout} (h : l.Opens inner) : l.width < inner.width := by
  cases h with
  | intro hstep _ => exact Nat.lt_add_of_pos_right (steps_pos hstep)

theorem Opens.depth_eq {l inner : Layout} (h : l.Opens inner) : inner.depth = l.depth + 1 := by
  cases h with
  | intro _ _ => rfl

/-- A line of the block around the innermost one closes the innermost one. -/
theorem closes_of_holds {l inner : Layout} {run : List Token} (ho : l.Opens inner) (h : l.Holds run) :
    inner.closes run = true := by
  have hdepth := ho.depth_eq
  rw [closes_iff]
  by_cases hrun : run = []
  · subst hrun
    exact ⟨0, rfl, by omega⟩
  · have hlevel : l.level? run = some l.depth := eq_of_beq (continues_of_holds h fun _ => hrun)
    have hwidth : run.length < inner.width := by
      rw [h.length]
      exact ho.width_lt
    exact ⟨l.depth, level?_of_opens ho hrun hwidth hlevel, by omega⟩

/-- A line that closes a block closes also the blocks inside it. -/
theorem closes_of_opens {l inner : Layout} {run : List Token} (hl : l.Nested) (ho : l.Opens inner)
    (h : l.closes run = true) : inner.closes run = true := by
  have hdepth := ho.depth_eq
  obtain ⟨level, hlevel, hlt⟩ := closes_iff.1 h
  rw [closes_iff]
  by_cases hrun : run = []
  · subst hrun
    exact ⟨0, rfl, by omega⟩
  · -- The width of the line is that of an outer block, so it is less than that of the inner one.
    obtain ⟨_, hne, _⟩ := (level?_eq_some_iff hrun).1 hlevel
    have hhead := List.head_dropWhile_not (p := (· != run.length)) (l := l.widths) hne
    have hmem := (List.dropWhile_suffix (l := l.widths) (· != run.length)).mem (List.head_mem hne)
    have hle := hl.le_width _ hmem
    rw [bne_eq_false_iff_eq.1 hhead] at hle
    have hwidth := Nat.lt_of_le_of_lt hle ho.width_lt
    exact ⟨level, level?_of_opens ho hrun hwidth hlevel, by omega⟩

/-! ## Opening a block -/

theorem isMixed_eq_false_iff {t : Token} {run : List Token} :
    isMixed (t :: run) = false ↔ ∀ u ∈ run, u.lexeme = t.lexeme := by
  simp [isMixed]

/-- A block is opened by indentation that its lines may have. -/
theorem enter?_eq_ok_iff {l inner : Layout} {run : List Token} :
    l.enter? run = .ok inner ↔ l.Opens inner ∧ inner.Holds run := by
  cases run with
  | nil =>
    simp only [enter?, reduceCtorEq, false_iff, not_and]
    intro ho h
    have := ho.width_lt
    rw [← h.length] at this
    exact absurd this (Nat.not_lt_zero _)
  | cons t run =>
    constructor
    · intro h
      simp only [enter?] at h
      split at h
      · cases h
      · rename_i hwide
        split at h
        · cases h
        · rename_i hblank
          rw [Bool.not_eq_true, Bool.or_eq_false_iff] at hblank
          have hsame : l.depth ≠ 0 → l.blank = some t.lexeme := by simpa using hblank.2
          split at h
          · rename_i hstep
            cases h
            rw [List.contains_iff_mem] at hstep
            have hwidth : l.width + ((t :: run).length - l.width) = (t :: run).length := by omega
            refine ⟨?_, rfl, ?_⟩
            · have ho := Opens.intro hstep hsame
              rw [hwidth] at ho
              exact ho
            · intro u hu
              rcases List.mem_cons.1 hu with rfl | hu
              · rfl
              · exact congrArg some (isMixed_eq_false_iff.1 hblank.1 u hu)
          · cases h
    · rintro ⟨ho, h⟩
      cases ho with
      | @intro blank step hstep hsame =>
        have hpos := steps_pos hstep
        have hlen : (t :: run).length = l.width + step := h.length
        have htext : t.lexeme = blank := Option.some.inj (h.blank t List.mem_cons_self)
        have hmixed : isMixed (t :: run) = false := isMixed_eq_false_iff.2 fun u hu =>
          (Option.some.inj (h.blank u (List.mem_cons_of_mem _ hu))).trans htext.symm
        have hsub : (t :: run).length - l.width = step := by omega
        have hother : (l.depth != 0 && l.blank != some t.lexeme) = false := by
          rw [htext]
          simpa using hsame
        have hstep' : (steps t.lexeme).contains step = true := by
          rw [htext]
          simpa using hstep
        simp only [enter?]
        rw [if_neg (by rw [hlen]; omega), hmixed, hother, hsub, hstep', hlen, htext]
        rfl

end Layout

/-! ## Indentation by kinds -/

/-- The character of a leading blank of this kind, as it stands in a text. -/
def Token.Kind.blank : Kind → String
  | .tab => "\t"
  | _ => " "

/-- A leading blank with the character of its kind, as every one that is read from a text is. -/
structure Token.IsBlank (t : Token) : Prop where
  indentation : t.kind.isIndentation = true
  lexeme : t.lexeme = t.kind.blank

theorem Token.Kind.blank_inj {k k' : Kind} (h : k.isIndentation = true) (h' : k'.isIndentation = true) :
    k.blank = k'.blank ↔ k = k' := by
  refine ⟨fun heq => ?_, congrArg _⟩
  cases k with
  | space =>
    cases k' with
    | space => rfl
    | tab => exact absurd heq (by decide)
    | _ => cases h'
  | tab =>
    cases k' with
    | space => exact absurd heq (by decide)
    | tab => rfl
    | _ => cases h'
  | _ => cases h

theorem Token.IsBlank.lexeme_eq_iff {t : Token} {k : Kind} (ht : t.IsBlank) (hk : k.isIndentation = true) :
    t.lexeme = k.blank ↔ t.kind = k := by
  rw [ht.lexeme]
  exact Kind.blank_inj ht.indentation hk

/-- Blanks that have the characters of their kinds are mixed if their kinds are. -/
theorem isMixed_eq_kinds {t : Token} {run : List Token} (h : ∀ u ∈ t :: run, u.IsBlank) :
    isMixed (t :: run) = run.any fun u => u.kind != t.kind := by
  obtain ⟨ht, hrun⟩ := List.forall_mem_cons.1 h
  rw [isMixed, Bool.eq_iff_iff, List.any_eq_true, List.any_eq_true]
  refine exists_congr fun u => and_congr_right fun hu => ?_
  rw [bne_iff_ne, bne_iff_ne, ht.lexeme]
  exact not_congr ((hrun u hu).lexeme_eq_iff ht.indentation)

namespace Layout

theorem steps_blank (k : Kind) : steps k.blank = if k = .tab then [1] else [1, 2, 4] := by
  cases k <;> rfl

/-- The lines of a block of blanks of one kind are indented by blanks of that kind. -/
theorem holds_iff_kinds {l : Layout} {k : Kind} {run : List Token} (hblank : l.blank = some k.blank)
    (hk : k.isIndentation = true) (hrun : ∀ t ∈ run, t.IsBlank) :
    l.Holds run ↔ run.length = l.width ∧ ∀ t ∈ run, t.kind = k := by
  have hsame : ∀ t ∈ run, (some t.lexeme = l.blank ↔ t.kind = k) := fun t ht => by
    rw [hblank, Option.some_inj]
    exact (hrun t ht).lexeme_eq_iff hk
  exact ⟨fun h => ⟨h.length, fun t ht => (hsame t ht).1 (h.blank t ht)⟩,
    fun h => ⟨h.1, fun t ht => (hsame t ht).2 (h.2 t ht)⟩⟩

/-- A block is opened by blanks of one kind, as many more than the block around it has as a step of that kind. -/
theorem enter?_iff_kinds {l inner : Layout} {run : List Token} (hrun : ∀ t ∈ run, t.IsBlank) :
    l.enter? run = .ok inner ↔
      ∃ (k : Kind) (step : Nat), k.isIndentation = true ∧ step ∈ (if k = .tab then [1] else [1, 2, 4]) ∧
        (l.depth ≠ 0 → l.blank = some k.blank) ∧ run.length = l.width + step ∧ (∀ t ∈ run, t.kind = k) ∧
        inner = ⟨some k.blank, run.length :: l.widths⟩ := by
  rw [enter?_eq_ok_iff]
  constructor
  · rintro ⟨⟨hstep, hsame⟩, hholds⟩
    rename_i blank step
    have hlength : run.length = l.width + step := hholds.length
    have hpos := steps_pos hstep
    cases run with
    | nil =>
      rw [List.length_nil] at hlength
      omega
    | cons t ts =>
      have ht := hrun t List.mem_cons_self
      have hblank : blank = t.kind.blank := by
        rw [← Option.some.inj (hholds.blank t List.mem_cons_self), ht.lexeme]
      subst hblank
      have hkinds := ((holds_iff_kinds rfl ht.indentation hrun).1 hholds).2
      rw [steps_blank] at hstep
      exact ⟨t.kind, step, ht.indentation, hstep, hsame, hlength, hkinds, by rw [hlength]⟩
  · rintro ⟨k, step, hk, hstep, hsame, hlength, hkinds, rfl⟩
    rw [← steps_blank] at hstep
    rw [hlength]
    exact ⟨.intro hstep hsame, (holds_iff_kinds rfl hk hrun).2 ⟨hlength, hkinds⟩⟩

end Layout
end Offside
