import Offside.Proofs.Reader.Forward
import Offside.Token.Lexer

/-!
# Going on after an error

A statement that is given up is skipped up to a line that begins a statement.  No such line is passed over, except
where the token under the cursor matters: that one is skipped whatever it is.  A statement is lost if its first token
is under the cursor, and if the token under the cursor is all the indentation in front of it.

* `resume_reaches` — skipping does not go beyond a statement;
* `opensStatement_resume` — skipping ends in front of a statement or at the end;
* `Reading.declaration_recovers` — a statement that is given up.
-/

set_option autoImplicit false

namespace Offside

open Token (Kind)

/-- A word that may begin a statement does so where `front` stands in front of it: the token in front is indentation
or on an earlier line. -/
structure BeginsLine (front : List Token) (k : Token) : Prop where
  starts : k.kind.startsStatement = true
  line : ∀ t ∈ front.getLast?, t.isIndentation = false → t.line < k.line

namespace BeginsLine

variable {front : List Token} {t k : Token}

theorem real (h : BeginsLine front k) : k.isIndentation = false := by
  have hstarts := h.starts
  unfold Token.isIndentation Kind.isIndentation
  unfold Kind.startsStatement at hstarts
  split at hstarts <;> simp_all

theorem tail (h : BeginsLine (t :: front) k) : BeginsLine front k := by
  refine ⟨h.starts, fun u hu => h.line u ?_⟩
  have hne : front ≠ [] := by
    rintro rfl
    cases hu
  rw [List.getLast?_cons_of_ne_nil hne]
  exact hu

end BeginsLine

/-- Skipping does not go beyond a line that begins a statement. -/
theorem resume_reaches {last : Int} {front : List Token} {k : Token} (more : List Token) (h : BeginsLine front k)
    (hlast : front = [] → last < k.line) : k :: more <:+ (resume last (front ++ k :: more)).2 := by
  induction front generalizing last with
  | nil =>
    simp [resume, h.real, h.starts, hlast rfl]
  | cons t front ih =>
    rw [List.cons_append, resume]
    have hhere : k :: more <:+ t :: (front ++ k :: more) := (List.suffix_append _ _).trans (List.suffix_cons _ _)
    by_cases ht : t.isIndentation = true
    · rw [if_pos ht]
      split
      · exact hhere
      · rename_i hpassed
        apply ih h.tail
        rintro rfl
        -- the statement follows the indentation, so it is not passed over
        refine absurd ?_ hpassed
        rw [List.nil_append, lineRun_snd, List.dropWhile_cons_of_pos ht, List.dropWhile_cons_of_neg (by simp [h.real])]
        exact h.starts
    · rw [if_neg ht]
      split
      · exact hhere
      · apply ih h.tail
        rintro rfl
        exact h.line t rfl (by simpa using ht)

/-- Skipping ends in front of a line that begins a statement, or at the end. -/
theorem opensStatement_resume (last : Int) (ts : List Token) :
    opensStatement (lineRun (resume last ts).2).2 = true := by
  induction ts generalizing last with
  | nil => rfl
  | cons t ts ih =>
    unfold resume
    split
    · split
      · assumption
      · exact ih t.line
    · rename_i hreal
      split
      · rename_i hstarts
        rw [lineRun_of_real (by simpa using hreal)]
        exact (Bool.and_eq_true_iff.1 hstarts).1
      · exact ih t.line

/-- What has been skipped is not reached again. -/
theorem not_reaches_skipped (last : Int) (k : Token) (more : List Token) : ¬ k :: more <:+ (resume last more).2 := by
  intro hsuffix
  have hle := (hsuffix.trans (resume_suffix last more)).length_le
  rw [List.length_cons] at hle
  omega

namespace Cursor

/-- A statement in front of the cursor is lost in exactly two cases: it begins under the cursor, or the token under
the cursor is all that stands in front of it on its line. -/
theorem recover_reaches_iff {c : Cursor} {front more : List Token} {k : Token} (hrest : c.rest = front ++ k :: more)
    (h : BeginsLine front k) :
    k :: more <:+ c.recover.rest ↔ ∃ t back, front = t :: back ∧ (back = [] → t.line < k.line) := by
  cases front with
  | nil =>
    have hrecover : c.recover.rest = (resume k.line more).2 := by
      simp [recover, hrest]
    constructor
    · intro hsuffix
      rw [hrecover] at hsuffix
      exact absurd hsuffix (not_reaches_skipped k.line k more)
    · rintro ⟨t, back, hfront, -⟩
      cases hfront
  | cons t back =>
    have hrecover : c.recover.rest = (resume t.line (back ++ k :: more)).2 := by
      simp [recover, hrest]
    rw [hrecover]
    constructor
    · intro hsuffix
      refine ⟨t, back, rfl, ?_⟩
      rintro rfl
      by_contra hline
      have hpassed : resume t.line (k :: more) = resume k.line more := by
        rw [resume, h.real]
        simp [hline]
      rw [List.nil_append, hpassed] at hsuffix
      exact not_reaches_skipped k.line k more hsuffix
    · rintro ⟨u, rest, hsplit, hline⟩
      cases hsplit
      exact resume_reaches more h.tail hline

/-- The statement that is reached is read next, if none begins in front of it. -/
theorem lineRun_recover {c : Cursor} {front more : List Token} {k : Token} (hrest : c.rest = front ++ k :: more)
    (h : BeginsLine front k) (hreached : k :: more <:+ c.recover.rest)
    (hopens : opensStatement (lineRun c.recover.rest).2 = true)
    (hfirst : ∀ t ∈ front.tail, t.kind.startsStatement = false) : (lineRun c.recover.rest).2 = k :: more := by
  obtain ⟨passed, hpassed⟩ := hreached
  have hmem : ∀ t ∈ passed, t ∈ front.tail := by
    have hsuffix : passed ++ k :: more <:+ front.tail ++ k :: more := by
      cases front with
      | nil =>
        rw [hpassed, recover, hrest]
        exact (resume_suffix k.line more).trans (List.suffix_cons k more)
      | cons t back =>
        rw [hpassed, recover, hrest]
        exact resume_suffix t.line (back ++ k :: more)
    obtain ⟨gap, hgap⟩ := hsuffix
    rw [← List.append_assoc] at hgap
    have htail := List.append_cancel_right hgap
    rw [← htail]
    exact fun t ht => List.mem_append_right gap ht
  have hline : (lineRun c.recover.rest).2 =
      if (passed.dropWhile Token.isIndentation).isEmpty then k :: more
      else passed.dropWhile Token.isIndentation ++ k :: more := by
    rw [← hpassed, lineRun_snd, List.dropWhile_append, List.dropWhile_cons_of_neg (by simp [h.real])]
  cases hreal : passed.dropWhile Token.isIndentation with
  | nil => simpa [hreal] using hline
  | cons t back =>
    rw [hline, hreal] at hopens
    have ht := (List.dropWhile_suffix (l := passed) Token.isIndentation).mem (hreal ▸ List.mem_cons_self)
    have := hfirst t (hmem t ht)
    simp [opensStatement, this] at hopens

end Cursor

namespace Reading

/-- **A statement that is given up takes no other with it, unless the error is noticed at its start.**  Whatever the
error, reading goes on at a line that begins a statement or at the end, and a word that begins a statement on its line
is not passed over, with two exceptions: it is the token at which the cursor stands when the statement is given up,
or the token at which the cursor stands is all the indentation in front of it.  The first such word behind the cursor
that is not passed over is on the line that is read next. -/
theorem declaration_recovers {fuel : Nat} {s c : Cursor} {e : Abandoned}
    (h : statementLine (fuel + 1) (declaration fuel) s = .error e c) :
    declaration (fuel + 1) s = .ok .nothing c.recover ∧
    opensStatement (lineRun c.recover.rest).2 = true ∧
    ∀ front k more, c.rest = front ++ k :: more → BeginsLine front k →
      (k :: more <:+ c.recover.rest ↔ ∃ t back, front = t :: back ∧ (back = [] → t.line < k.line)) ∧
      (k :: more <:+ c.recover.rest → (∀ t ∈ front.tail, t.kind.startsStatement = false) →
        (lineRun c.recover.rest).2 = k :: more) := by
  have hopens : opensStatement (lineRun c.recover.rest).2 = true := by
    unfold Cursor.recover
    split
    · rename_i hrest
      rw [hrest]
      rfl
    · exact opensStatement_resume _ _
  refine ⟨?_, hopens, fun front k more hrest hbegins => ?_⟩
  · rw [declaration, recovering, h]
  · exact ⟨Cursor.recover_reaches_iff hrest hbegins, fun hreached hfirst =>
      Cursor.lineRun_recover hrest hbegins hreached hopens hfirst⟩

/-- A statement with an error in its middle, and one behind it. -/
def brokenTokens : List Token :=
  [⟨.printWord, "print", .null, 1⟩, ⟨.rightParen, ")", .null, 1⟩, ⟨.setWord, "set", .null, 2⟩,
    ⟨.identifier, "x", .null, 2⟩, ⟨.toWord, "to", .null, 2⟩, ⟨.trueWord, "true", .null, 2⟩]

theorem declaration_recovers_brokenTokens :
    ∃ c, statementLine 6 (declaration 5) (.start 255 ⟨brokenTokens, 2⟩) = .error ⟨⟩ c ∧
      declaration 6 (.start 255 ⟨brokenTokens, 2⟩) = .ok .nothing c.recover ∧
      (lineRun c.recover.rest).2 = brokenTokens.drop 2 := by
  obtain ⟨c, h, hrest⟩ : ∃ c, statementLine 6 (declaration 5) (.start 255 ⟨brokenTokens, 2⟩) = .error ⟨⟩ c ∧
      c.rest = brokenTokens.drop 1 := ⟨_, rfl, rfl⟩
  obtain ⟨hresult, -, hreaches⟩ := declaration_recovers h
  have hbegins : BeginsLine [⟨.rightParen, ")", .null, 1⟩] ⟨.setWord, "set", .null, 2⟩ :=
    ⟨rfl, fun t ht _ => by cases ht; decide⟩
  obtain ⟨hiff, hnext⟩ := hreaches _ _ _ hrest hbegins
  exact ⟨c, h, hresult, hnext (hiff.2 ⟨_, _, rfl, fun _ => by decide⟩) (by simp)⟩

/-- A statement without its end, and one behind it. -/
def lostText : String :=
  "print\nset x to 1"

/-- Where a step is given up. -/
def givenUpAt? {α : Type} : EStateM.Result Abandoned Cursor α → Option Cursor
  | .ok _ _ => none
  | .error _ c => some c

/-- The keyword of the second statement begins its line and is under the cursor when the first one is given up.
Nothing is left to go on with, and the second statement is lost. -/
theorem lost_lostText :
    ((Token.scan lostText).stream.tokens.map fun t => (t.kind, t.line)) =
      [(.printWord, 1), (.setWord, 2), (.identifier, 2), (.toWord, 2), (.number, 2)] ∧
    ((givenUpAt? (statementLine 5 (declaration 4) (.start 255 (Token.scan lostText).stream))).map fun c =>
      (c.rest.map Token.kind, c.recover.rest.map Token.kind)) =
      some ([.setWord, .identifier, .toWord, .number], []) ∧
    (Program.read 255 (Token.scan lostText).stream).statements.length = 1 := by
  decide +kernel

end Reading
end Offside
