import Offside.Proofs.Reader.Bounds

/-!
# Reading ends, whatever the tokens are

Reading a text is a recovery loop around a recursive descent.  This file puts together what its steps do:
every pass of a loop moves past a token, no step that is given up escapes the loop, and the loop stops only
where nothing but indentation is left.  None of this depends on the tokens being a program.

* `Reading.items_ends` — where the loop over lines stops;
* `Cursor.getElem?_position` — a cursor of a text stands at a token of it or at its end mark;
* `Reading.program_total` — the whole text.
-/

set_option autoImplicit false

namespace Offside

/-- The width of the innermost block is found at its depth among all widths, the outermost first. -/
theorem Layout.getElem?_depth (l : Layout) : (0 :: l.widths.reverse)[l.depth]? = some l.width := by
  unfold depth width
  cases l.widths with
  | nil => rfl
  | cons w ws => simp

namespace Cursor

/-- How many tokens of a text lie behind a cursor. -/
def position (stream : Token.Stream) (s : Cursor) : Nat :=
  stream.tokens.length - s.rest.length

/-- A cursor that has only moved forward in a text stands at one of its tokens, or at its end mark. -/
theorem getElem?_position {stream : Token.Stream} {s : Cursor} (hrest : s.rest <:+ stream.tokens)
    (hline : s.endLine = stream.endLine) : stream.toList[s.position stream]? = some s.current := by
  obtain ⟨passed, hpassed⟩ := hrest
  have hpos : s.position stream = passed.length := by
    unfold position
    rw [← hpassed, List.length_append]
    omega
  unfold Token.Stream.toList current firstOf
  rw [hpos, ← hpassed, List.append_assoc, List.getElem?_append_right (Nat.le_refl _), Nat.sub_self, hline]
  cases s.rest with
  | nil => rfl
  | cons t ts => rfl

end Cursor

namespace Reading

open Step

variable {α : Type}

/-- The loop over lines yields a value and stops in front of a line of a block further out, or where only
indentation is left. -/
theorem items_ends {item : Reading (Option α)} {fuel : Nat} (hadv : Advances fuel item) {s : Cursor}
    (hs : s.rest.length ≤ fuel) :
    ∃ as t, items item fuel s = .ok as t ∧ s.Leads t ∧
      ((lineRun t.rest).2 = [] ∨ t.layout.closes (lineRun t.rest).1 = true) := by
  induction fuel generalizing s with
  | zero =>
    have hnil : s.rest = [] := List.length_eq_zero_iff.1 (Nat.le_zero.1 hs)
    exact ⟨[], s, rfl, Cursor.Leads.refl s, Or.inl (by rw [hnil]; rfl)⟩
  | succ fuel ih =>
    unfold items
    simp only
    split
    · rename_i hstop
      refine ⟨[], s, rfl, Cursor.Leads.refl s, ?_⟩
      rcases (Bool.or_eq_true _ _).mp hstop with hend | hclose
      · exact Or.inl (List.isEmpty_iff.1 hend)
      · exact Or.inr hclose
    · rename_i hmore
      have hline : (lineRun s.rest).2 ≠ [] := by
        intro hnil
        simp [hnil] at hmore
      obtain ⟨first, t, hfirst, hst, hlt⟩ := hadv s hs hline
      obtain ⟨more, u, hrest, htu, hstop⟩ := ih (hadv.mono (Nat.le_succ fuel)) (s := t) (by omega)
      refine ⟨first.toList ++ more, u, ?_, hst.trans htu, hstop⟩
      rw [bind_of_ok hfirst, bind_of_ok hrest]
      rfl

/-- At the top level no line belongs to a block further out. -/
theorem closes_top (run : List Token) : Layout.top.closes run = false := by
  unfold Layout.closes
  split
  · simp [Layout.top, Layout.depth]
  · rfl

/-- Reading a text yields statements, with only indentation left. -/
theorem program_ends (argumentLimit : Nat) (stream : Token.Stream) :
    ∃ statements s, program stream.tokens.length (.start argumentLimit stream) = .ok statements s ∧
      Program.read argumentLimit stream = ⟨statements, s.reports⟩ ∧
      (Cursor.start argumentLimit stream).Leads s ∧ ∀ t ∈ s.rest, t.isIndentation = true := by
  obtain ⟨statements, s, hread, hlead, hstop⟩ :=
    items_ends ((advances_declaration stream.tokens.length).map some)
      (s := .start argumentLimit stream) (Nat.le_refl _)
  have hprogram : program stream.tokens.length (.start argumentLimit stream) = .ok statements s := hread
  have hlayout : s.layout = .top := hlead.layout
  refine ⟨statements, s, hprogram, ?_, hlead, ?_⟩
  · unfold Program.read
    rw [hprogram]
  · rcases hstop with hend | hclose
    · exact (lineRun_snd_eq_nil_iff s.rest).1 hend
    · rw [hlayout, closes_top] at hclose
      cases hclose

/-- **Reading any tokens ends.**  Whatever bound at least as large as the text its loops are given, it yields
the same statements, with only indentation left between the cursor and the end mark and all blocks closed.
Every pass of its loops makes progress: over the lines of statements, over the lines of a class body, in the
skipping of tokens after an error, and in the measuring of indentation.  A cursor that has only moved forward
stands at a token of the text or at its end mark, and the width of the innermost block is always among those
of the open blocks. -/
theorem program_total (argumentLimit : Nat) (stream : Token.Stream) :
    (∃ statements s,
      (∀ n, stream.tokens.length ≤ n →
        program n (.start argumentLimit stream) = .ok statements s) ∧
      Program.read argumentLimit stream = ⟨statements, s.reports⟩ ∧
      (Cursor.start argumentLimit stream).Leads s ∧
      s.layout = .top ∧
      ∀ t ∈ s.rest, t.isIndentation = true) ∧
    (∀ n, Advances n (declaration n)) ∧
    (∀ k n, Advances k (method n (declaration k))) ∧
    (∀ s : Cursor, s.rest ≠ [] → s.Leads s.recover ∧ s.recover.rest.length < s.rest.length) ∧
    (∀ ts, (lineRun ts).2 = ts.dropWhile Token.isIndentation) ∧
    (∀ s : Cursor, s.rest <:+ stream.tokens → s.endLine = stream.endLine →
      stream.toList[s.position stream]? = some s.current) ∧
    (∀ l : Layout, (0 :: l.widths.reverse)[l.depth]? = some l.width) := by
  refine ⟨?_, advances_declaration, fun k n => advances_method (moves_declaration k) n k,
    fun s hs => ⟨s.leads_recover, Cursor.length_recover_lt hs⟩, lineRun_snd,
    fun s hs hline => Cursor.getElem?_position hs hline, Layout.getElem?_depth⟩
  obtain ⟨statements, s, hprogram, hread, hlead, hend⟩ := program_ends argumentLimit stream
  refine ⟨statements, s, fun n hn => ?_, hread, hlead, hlead.layout, hend⟩
  exact (program_eq_of_le (m := stream.tokens.length) (Nat.le_refl _) hn).trans hprogram

end Reading
end Offside
