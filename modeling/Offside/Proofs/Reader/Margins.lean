import Mathlib.Data.List.Basic
import Mathlib.Data.List.Chain
import Offside.Proofs.Reader.Totality

/-!
# Margins

The off-side rule can be kept with numbers alone: how many blocks are open, how wide each of them is, and the
character that indents them.  They are changed when a block is opened, in two steps between which an error may fall,
and put back when it is left, whether its lines have been read or an error leads out of it.

* `Margins` — the numbers, with what is decided by them;
* `Margins.Sound` — what is true of the numbers between two steps;
* `Layout.margins` — the numbers that say the same as a layout, with `Layout.level?_margins`, `Layout.widen?_margins`
  and `Layout.Nested.leave_margins` for what is decided and changed.
-/

set_option autoImplicit false

namespace Offside

/-! ## Margins -/

/-- The number of open blocks, their widths, outermost first and behind that of the top level, and the character that
indents them, if there is one. -/
structure Margins where
  depth : Nat
  widths : List Nat
  blank : Option String
  deriving DecidableEq, Repr

namespace Margins

/-- The margins in front of a text. -/
def start : Margins :=
  ⟨0, [0], none⟩

/-- The level of the block to which a line with the given indentation belongs, if there is one. -/
def level? (m : Margins) (run : List Token) : Option Nat :=
  if run.isEmpty then some 0
  else
    match m.blank with
    | none => none
    | some blank =>
      if run.all (fun t => t.lexeme == blank) && m.widths.contains run.length then some (m.widths.idxOf run.length)
      else none

/-- A line of the innermost block. -/
def continues (m : Margins) (run : List Token) : Bool :=
  m.level? run == some m.depth

/-- A line of a block further out. -/
def closes (m : Margins) (run : List Token) : Bool :=
  match m.level? run with
  | some level => decide (level < m.depth)
  | none => false

/-- A colon has been read: the next line is in one block more, the width of which is not known yet. -/
def deepen (m : Margins) : Margins :=
  { m with depth := m.depth + 1 }

/-- Notes the width of the innermost block, the first line of which has the given indentation. -/
def widen? (m : Margins) (run : List Token) : Except Problem Margins :=
  match run with
  | [] => .error (.expected "indented block after ':'")
  | t :: _ =>
    let around := m.widths.getLastD 0
    if run.length ≤ around then .error (.expected "indented block after ':'")
    else if isMixed run || (decide (1 < m.depth) && m.blank != some t.lexeme) then .error .mixedIndentation
    else if (Layout.steps t.lexeme).contains (run.length - around) then
      .ok { m with widths := m.widths ++ [run.length], blank := some t.lexeme }
    else .error (.indentationUnit (run.length - around))

/-- Leaves the innermost block, whether or not its width has been noted. -/
def leave (m : Margins) : Margins :=
  { depth := m.depth - 1
    widths := m.widths.take (m.depth - 1 + 1)
    blank := if m.depth - 1 = 0 then none else m.blank }

/-- Why a line with the given indentation is not a line of the innermost block. -/
def misfit (m : Margins) (run : List Token) : Problem :=
  if isMixed run then .mixedIndentation else .indentation (m.widths.getD m.depth 0) run.length

/-- The margins between two steps: a width for every open block and one for the top level, each wider than the one in
front by a permitted step, and an indentation character as long as a block is open. -/
structure Sound (m : Margins) : Prop where
  length : m.widths.length = m.depth + 1
  first : m.widths.head? = some 0
  increasing : m.widths.Pairwise (· < ·)
  steps : m.widths.IsChain fun w w' => ∃ step ∈ [1, 2, 4], w' = w + step ∧ (m.blank = some "\t" → step = 1)
  blank : m.blank = none ↔ m.depth = 0

end Margins

/-! ## Margins and layouts -/

namespace Layout

/-- The margins that say the same as a layout. -/
def margins (l : Layout) : Margins :=
  ⟨l.depth, 0 :: l.widths.reverse, l.blank⟩

variable {l inner : Layout} {run : List Token}

theorem Nested.blank_eq_none_iff (h : l.Nested) : l.blank = none ↔ l.depth = 0 := by
  cases h with
  | top => exact ⟨fun _ => rfl, fun _ => rfl⟩
  | opens _ ho =>
    obtain ⟨_, _⟩ := ho
    exact ⟨nofun, nofun⟩

theorem getLast?_margins (l : Layout) : l.margins.widths.getLast? = some l.width := by
  rw [List.getLast?_eq_getElem?, margins, List.length_cons, List.length_reverse]
  exact getElem?_depth l

/-- One block more is one width more. -/
theorem Opens.margins (ho : l.Opens inner) :
    inner.margins = ⟨l.depth + 1, l.margins.widths ++ [inner.width], inner.blank⟩ := by
  obtain ⟨_, _⟩ := ho
  simp [Layout.margins, depth, width]

theorem steps_sound {blank : String} {step : Nat} (h : step ∈ steps blank) :
    step ∈ [1, 2, 4] ∧ (some blank = some "\t" → step = 1) := by
  unfold steps at h
  split at h
  · obtain rfl := List.mem_singleton.1 h
    exact ⟨by decide, fun _ => rfl⟩
  · next hblank => exact ⟨h, fun htab => absurd (Option.some.inj htab) hblank⟩

theorem Nested.lt_of_mem_margins (h : l.Nested) (ho : l.Opens inner) :
    ∀ w ∈ l.margins.widths, w < inner.width := by
  intro w hw
  have hwidth := ho.width_lt
  rcases List.mem_cons.1 hw with rfl | hw
  · omega
  · have hle := h.le_width w (List.mem_reverse.1 hw)
    omega

/-- The margins of a layout that comes about by opening blocks are sound. -/
theorem Nested.sound_margins (h : l.Nested) : l.margins.Sound := by
  induction h with
  | top =>
    exact ⟨rfl, rfl, List.pairwise_singleton _ _, List.isChain_singleton _, ⟨fun _ => rfl, fun _ => rfl⟩⟩
  | @opens l inner hl ho ih =>
    have hlast := getLast?_margins l
    have hnested := Nested.opens hl ho
    rw [ho.margins]
    refine ⟨?_, ?_, ?_, ?_, ?_⟩
    · rw [List.length_append, ih.length]
      rfl
    · rfl
    · rw [List.pairwise_append]
      refine ⟨ih.increasing, List.pairwise_singleton _ _, ?_⟩
      intro w hw w' hw'
      rw [List.mem_singleton.1 hw']
      exact hl.lt_of_mem_margins ho w hw
    · obtain ⟨hstep, hsame⟩ := ho
      rename_i blank step
      rw [List.isChain_append]
      refine ⟨?_, List.isChain_singleton _, ?_⟩
      · by_cases hdepth : l.depth = 0
        · rw [margins, List.length_eq_zero_iff.1 hdepth]
          exact List.isChain_singleton _
        · have hsteps := ih.steps
          rw [margins, hsame hdepth] at hsteps
          exact hsteps
      · intro w hw w' hw'
        rw [hlast] at hw
        obtain rfl := Option.mem_some.1 hw
        obtain rfl := Option.mem_some.1 hw'
        exact ⟨step, (steps_sound hstep).1, rfl, (steps_sound hstep).2⟩
    · rw [hnested.blank_eq_none_iff, ho.depth_eq]

/-! What is decided by the margins is what is decided by the layout. -/

/-- The place of a width among all of them, outermost first, is the number of blocks from it outwards. -/
theorem Nested.idxOf_margins (h : l.Nested) {n : Nat} (hn : n ∈ l.widths) :
    l.margins.widths.idxOf n = (l.widths.dropWhile (· != n)).length := by
  induction h with
  | top => cases hn
  | @opens l inner hl ho ih =>
    have hlt := hl.lt_of_mem_margins ho
    rw [ho.margins]
    obtain ⟨-, -⟩ := ho
    rename_i blank step
    rcases List.mem_cons.1 hn with rfl | hn
    · have hnew : l.width + step ∉ l.margins.widths := fun hmem => Nat.lt_irrefl _ (hlt _ hmem)
      have hstop : ((l.width + step) :: l.widths).dropWhile (· != l.width + step) = (l.width + step) :: l.widths :=
        List.dropWhile_cons_of_neg (by simp)
      rw [hstop, List.idxOf_append_of_notMem hnew, hl.sound_margins.length]
      simp [width, margins, depth]
    · have hold : n ∈ l.margins.widths := List.mem_cons_of_mem _ (List.mem_reverse.2 hn)
      have hne : l.width + step ≠ n := (Nat.ne_of_lt (hlt n hold)).symm
      have hskip : ((l.width + step) :: l.widths).dropWhile (· != n) = l.widths.dropWhile (· != n) :=
        List.dropWhile_cons_of_pos (by simpa using hne)
      rw [hskip, List.idxOf_append_of_mem hold]
      exact ih hn

theorem level?_margins (h : l.Nested) (run : List Token) : l.margins.level? run = l.level? run := by
  by_cases hrun : run = []
  · subst hrun
    rfl
  have hempty : run.isEmpty = false := List.isEmpty_eq_false_iff.2 hrun
  have hlength : run.length ≠ 0 := fun hzero => hrun (List.length_eq_zero_iff.1 hzero)
  have hmem : l.margins.widths.contains run.length = l.widths.contains run.length := by
    simp [margins, hlength]
  unfold Margins.level? level?
  rw [hempty, hmem]
  cases hblank : l.blank with
  | none =>
    obtain ⟨t, ts, rfl⟩ := List.exists_cons_of_ne_nil hrun
    simp [margins, hblank]
  | some blank =>
    have hsame : l.margins.blank = some blank := hblank
    simp only [hsame, Option.some_beq_some]
    by_cases hwidth : run.length ∈ l.widths
    · have hplace := h.idxOf_margins hwidth
      cases hdrop : l.widths.dropWhile (· != run.length) with
      | nil =>
        have hall := List.dropWhile_eq_nil_iff.1 hdrop _ hwidth
        simp at hall
      | cons w ws =>
        rw [hdrop] at hplace
        simp [hwidth, hplace]
    · have hdrop : l.widths.dropWhile (· != run.length) = [] := by
        rw [List.dropWhile_eq_nil_iff]
        intro w hw
        rw [bne_iff_ne]
        rintro rfl
        exact hwidth hw
      simp [hwidth, hdrop]

theorem continues_margins (h : l.Nested) (run : List Token) : l.margins.continues run = l.continues run := by
  unfold Margins.continues continues
  rw [level?_margins h]
  rfl

theorem closes_margins (h : l.Nested) (run : List Token) : l.margins.closes run = l.closes run := by
  unfold Margins.closes closes
  rw [level?_margins h]
  rfl

theorem misfit_margins (l : Layout) (run : List Token) : l.margins.misfit run = l.misfit run := by
  have hwidth : l.margins.widths.getD l.depth 0 = l.width := by
    rw [List.getD_eq_getElem?_getD, margins, getElem?_depth, Option.getD_some]
  unfold Margins.misfit misfit
  rw [← hwidth]
  rfl

/-- The width of a block is noted as the block is opened. -/
theorem widen?_margins (l : Layout) (run : List Token) :
    l.margins.deepen.widen? run = (l.enter? run).map margins := by
  cases run with
  | nil => rfl
  | cons t run =>
    have haround : l.margins.deepen.widths.getLastD 0 = l.width := by
      rw [List.getLastD_eq_getLast?]
      exact congrArg (Option.getD · 0) (getLast?_margins l)
    have hdeep : decide (1 < l.margins.deepen.depth) = (l.depth != 0) := by
      rw [Bool.eq_iff_iff, decide_eq_true_iff, bne_iff_ne]
      simp only [margins, Margins.deepen]
      omega
    have hblank : l.margins.deepen.blank = l.blank := rfl
    simp only [Margins.widen?, enter?, haround, hdeep, hblank]
    split
    · rfl
    split
    · rfl
    split
    · simp [Except.map, margins, Margins.deepen, depth]
    · rfl

/-- Leaving a block leads back to the margins around it, whether or not its width has been noted. -/
theorem Nested.leave_margins (h : l.Nested) {blank : Option String} (hblank : l.depth ≠ 0 → l.blank = blank)
    (more : List Nat) : Margins.leave ⟨l.depth + 1, l.margins.widths ++ more, blank⟩ = l.margins := by
  have hwidths : (l.margins.widths ++ more).take (l.depth + 1) = l.margins.widths :=
    List.take_left' h.sound_margins.length
  have hkept : (if l.depth = 0 then none else blank) = l.blank := by
    split
    · next hdepth => exact (h.blank_eq_none_iff.2 hdepth).symm
    · next hdepth => exact (hblank hdepth).symm
  simp only [Margins.leave, Nat.add_sub_cancel, hwidths, hkept]
  rfl

theorem Opens.leave_margins (h : l.Nested) (ho : l.Opens inner) : inner.margins.leave = l.margins := by
  rw [ho.margins]
  obtain ⟨-, hsame⟩ := ho
  exact h.leave_margins hsame _

theorem Nested.leave_deepen (h : l.Nested) : l.margins.deepen.leave = l.margins := by
  have hleave := h.leave_margins (fun _ => rfl) []
  rw [List.append_nil] at hleave
  exact hleave

end Layout
end Offside
