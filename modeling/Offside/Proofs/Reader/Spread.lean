import Offside.Proofs.Reader.Exactness
import Offside.Proofs.Token.Insertion

/-!
# The same place of a text spread over more lines

Put a line break between parentheses, and all that follows is one line further down.  Two cursors, one in the text as
it was and one in the text with the line break, are at the same place if they will see the same tokens: up to the line
break as they are; behind it one line apart, once the blanks there are stepped over.  Lines are compared with one
another only where no parenthesis is open, so never across the line break.

* `Expr.unplaced`, `Stmt.unplaced` — trees without the lines of their tokens;
* `Layout.level?_congr`, `Layout.enter?_congr` — layouts see the lexemes of the indentation in front, not its line;
* `Cursor.Spread` — two cursors at the same place of the two texts.
-/

set_option autoImplicit false

namespace Offside

open Token (Kind lowered)

/-! ## Trees without lines -/

/-- The token without its line. -/
def Token.unplaced (t : Token) : Token :=
  { t with line := 0 }

mutual

/-- The expression without the lines of its tokens. -/
def Expr.unplaced : Expr Unit → Expr Unit
  | .literal value => .literal value
  | .group inner => .group inner.unplaced
  | .unary operator operand => .unary operator.unplaced operand.unplaced
  | .binary left operator right => .binary left.unplaced operator.unplaced right.unplaced
  | .logical left operator right => .logical left.unplaced operator.unplaced right.unplaced
  | .name token site => .name token.unplaced site
  | .setField object field value => .setField object.unplaced field.unplaced value.unplaced
  | .getField object field => .getField object.unplaced field.unplaced
  | .call callee paren arguments => .call callee.unplaced paren.unplaced (Expr.unplacedAll arguments)
  | .thisRef keyword site => .thisRef keyword.unplaced site
  | .superRef keyword method site => .superRef keyword.unplaced method.unplaced site
  | .unknown => .unknown

/-- Several expressions without the lines of their tokens. -/
def Expr.unplacedAll : List (Expr Unit) → List (Expr Unit)
  | [] => []
  | e :: es => e.unplaced :: Expr.unplacedAll es

end

mutual

/-- The statement without the lines of its tokens. -/
def Stmt.unplaced : Stmt Unit → Stmt Unit
  | .block body => .block (Stmt.unplacedAll body)
  | .define r => .define r.unplaced
  | .classDef name superclass methods =>
    .classDef name.unplaced (superclass.map fun p => (p.1.unplaced, p.2)) (Routine.unplacedAll methods)
  | .evaluate e => .evaluate e.unplaced
  | .branch condition whenTrue none => .branch condition.unplaced whenTrue.unplaced none
  | .branch condition whenTrue (some whenFalse) =>
    .branch condition.unplaced whenTrue.unplaced (some whenFalse.unplaced)
  | .print e => .print e.unplaced
  | .giveBack keyword value => .giveBack keyword.unplaced (value.map Expr.unplaced)
  | .assign name value site => .assign name.unplaced (value.map Expr.unplaced) site
  | .loop condition body => .loop condition.unplaced body.unplaced
  | .unknown => .unknown

/-- Several statements without the lines of their tokens. -/
def Stmt.unplacedAll : List (Stmt Unit) → List (Stmt Unit)
  | [] => []
  | s :: ss => s.unplaced :: Stmt.unplacedAll ss

/-- The routine without the lines of its tokens. -/
def Routine.unplaced : Routine Unit → Routine Unit
  | .mk name params body type =>
    .mk name.unplaced (params.map Token.unplaced) (Stmt.unplacedAll body) (type.map Token.unplaced)

/-- Several routines without the lines of their tokens. -/
def Routine.unplacedAll : List (Routine Unit) → List (Routine Unit)
  | [] => []
  | r :: rs => r.unplaced :: Routine.unplacedAll rs

end

theorem Expr.unplacedAll_eq_map (es : List (Expr Unit)) : Expr.unplacedAll es = es.map Expr.unplaced := by
  induction es with
  | nil => rfl
  | cons e es ih => rw [Expr.unplacedAll, ih, List.map_cons]

theorem Stmt.unplacedAll_eq_map (ss : List (Stmt Unit)) : Stmt.unplacedAll ss = ss.map Stmt.unplaced := by
  induction ss with
  | nil => rfl
  | cons s ss ih => rw [Stmt.unplacedAll, ih, List.map_cons]

theorem Routine.unplacedAll_eq_map (rs : List (Routine Unit)) : Routine.unplacedAll rs = rs.map Routine.unplaced := by
  induction rs with
  | nil => rfl
  | cons r rs ih => rw [Routine.unplacedAll, ih, List.map_cons]

theorem Stmt.unplaced_branch (condition : Expr Unit) (whenTrue : Stmt Unit) (whenFalse : Option (Stmt Unit)) :
    (Stmt.branch condition whenTrue whenFalse).unplaced =
      .branch condition.unplaced whenTrue.unplaced (whenFalse.map Stmt.unplaced) := by
  cases whenFalse <;> rfl

theorem unplaced_join (tier : Reading.Tier) (left right : Expr Unit) (operator : Token) :
    (tier.join left operator right).unplaced = tier.join left.unplaced operator.unplaced right.unplaced := by
  cases tier <;> rfl

theorem kind_of_unplaced {x y : Token} (h : y.unplaced = x.unplaced) : y.kind = x.kind :=
  (congrArg Token.kind h : y.unplaced.kind = x.unplaced.kind)

theorem literal_of_unplaced {x y : Token} (h : y.unplaced = x.unplaced) : y.literal = x.literal :=
  (congrArg Token.literal h : y.unplaced.literal = x.unplaced.literal)

/-! ## Indentation one line further down -/

theorem dropWhile_lowered (ts : List Token) :
    (ts.map lowered).dropWhile Token.isIndentation = (ts.dropWhile Token.isIndentation).map lowered := by
  rw [List.dropWhile_map]
  rfl

theorem lineRunFrom_lowered (run ts : List Token) :
    lineRunFrom (run.map lowered) (ts.map lowered) =
      ((lineRunFrom run ts).1.map lowered, (lineRunFrom run ts).2.map lowered) := by
  induction ts generalizing run with
  | nil => rfl
  | cons t ts ih =>
    have hsame : ((run.map lowered).head?.all fun r => r.line == (lowered t).line) =
        run.head?.all fun r => r.line == t.line := by
      cases run with
      | nil => rfl
      | cons r run =>
        show (r.line + 1 == t.line + 1) = (r.line == t.line)
        rw [Bool.eq_iff_iff, beq_iff_eq, beq_iff_eq]
        omega
    have hblank : (lowered t).isIndentation = t.isIndentation := rfl
    rw [List.map_cons, lineRunFrom, lineRunFrom, hsame, hblank]
    split
    · split
      · exact ih (t :: run)
      · exact ih [t]
    · split <;> rfl

/-- What is behind the first real token does not matter for the indentation in front of it. -/
theorem lineRunFrom_append_of_real {front : List Token} (h : ∃ x ∈ front, x.isIndentation = false)
    (run rest : List Token) :
    lineRunFrom run (front ++ rest) = ((lineRunFrom run front).1, (lineRunFrom run front).2 ++ rest) := by
  induction front generalizing run with
  | nil =>
    obtain ⟨x, hx, -⟩ := h
    cases hx
  | cons t front ih =>
    rw [List.cons_append, lineRunFrom, lineRunFrom]
    by_cases ht : t.isIndentation = true
    · have hfront : ∃ x ∈ front, x.isIndentation = false := by
        obtain ⟨x, hx, hreal⟩ := h
        rcases List.mem_cons.1 hx with rfl | hx
        · rw [ht] at hreal
          cases hreal
        · exact ⟨x, hx, hreal⟩
      rw [if_pos ht, if_pos ht]
      split
      · exact ih hfront _
      · exact ih hfront _
    · rw [if_neg ht, if_neg ht]
      rfl

namespace Layout

variable {l : Layout} {run run' : List Token}

theorem level?_congr (h : run'.map Token.lexeme = run.map Token.lexeme) : l.level? run' = l.level? run := by
  have hlength : run'.length = run.length := by
    simpa using congrArg List.length h
  have hempty : run'.isEmpty = run.isEmpty := by
    rw [← List.isEmpty_map (f := Token.lexeme), h, List.isEmpty_map]
  have hall : (run'.all fun t => some t.lexeme == l.blank) = run.all fun t => some t.lexeme == l.blank := by
    have htexts := congrArg (List.all · fun x => some x == l.blank) h
    simp only [List.all_map] at htexts
    exact htexts
  simp only [level?, hlength, hempty, hall]

theorem continues_congr (h : run'.map Token.lexeme = run.map Token.lexeme) : l.continues run' = l.continues run := by
  rw [continues, continues, level?_congr h]

theorem closes_congr (h : run'.map Token.lexeme = run.map Token.lexeme) : l.closes run' = l.closes run := by
  rw [closes, closes, level?_congr h]

theorem enter?_congr (h : run'.map Token.lexeme = run.map Token.lexeme) : l.enter? run' = l.enter? run := by
  cases run with
  | nil =>
    rw [List.map_nil, List.map_eq_nil_iff] at h
    rw [h]
  | cons t ts =>
    cases run' with
    | nil => cases h
    | cons t' ts' =>
      obtain ⟨htext, htexts⟩ := List.cons.inj h
      have hlength : (t' :: ts').length = (t :: ts).length := by
        simpa using congrArg List.length h
      have hmixed : isMixed (t' :: ts') = isMixed (t :: ts) := by
        have hany := congrArg (List.any · fun x => x != t.lexeme) htexts
        simp only [List.any_map] at hany
        rw [isMixed, isMixed, htext]
        exact hany
      simp only [enter?, hlength, hmixed, htext]

end Layout

/-! ## Cursors at the same place -/

namespace Cursor

/-- Behind `front`, inside parentheses, the second text has a line break with blanks that the first one has not. -/
def Ahead (s t : Cursor) : Prop :=
  ∃ front blanks back, s.rest = front ++ back ∧ t.rest = front ++ (blanks ++ back.map lowered) ∧
    (∀ b ∈ blanks, b.isIndentation = true) ∧ (∃ x ∈ front, x.isIndentation = false) ∧
    parensOver s.parens front ≠ 0 ∧ t.lastLine = s.lastLine

/-- The line break is behind both cursors, and so is the parenthesis that is open at it if none is open any more. -/
def Behind (s t : Cursor) : Prop :=
  t.rest = s.rest.map lowered ∧ (s.parens = 0 → t.lastLine = s.lastLine + 1)

/-- Two cursors at the same place, the second one in a text with a line break put in. -/
structure Spread (s t : Cursor) : Prop where
  parens : t.parens = s.parens
  layout : t.layout = s.layout
  argumentLimit : t.argumentLimit = s.argumentLimit
  reports : t.reports.length = s.reports.length
  tokens : Ahead s t ∨ Behind s t

theorem parensOver_cons (n : Nat) (t : Token) (ts : List Token) :
    parensOver n (t :: ts) = parensOver (parensAfter n t.kind) ts := rfl

theorem parensAfter_of_isIndentation {n : Nat} {t : Token} (h : t.isIndentation = true) :
    parensAfter n t.kind = n := by
  have hkind : t.kind.isIndentation = true := h
  revert hkind
  cases t.kind <;> simp [Kind.isIndentation, parensAfter]

theorem parensOver_of_isIndentation {n : Nat} {ts : List Token} (h : ∀ t ∈ ts, t.isIndentation = true) :
    parensOver n ts = n := by
  induction ts with
  | nil => rfl
  | cons t ts ih =>
    obtain ⟨ht, hts⟩ := List.forall_mem_cons.1 h
    rw [parensOver_cons, parensAfter_of_isIndentation ht, ih hts]

theorem parensOver_dropWhile (n : Nat) (ts : List Token) :
    parensOver n (ts.dropWhile Token.isIndentation) = parensOver n ts := by
  induction ts with
  | nil => rfl
  | cons t ts ih =>
    cases ht : t.isIndentation with
    | false => rw [List.dropWhile_cons_of_neg (by simp [ht])]
    | true => rw [List.dropWhile_cons_of_pos ht, ih, parensOver_cons, parensAfter_of_isIndentation ht]

/-- A text with a real token keeps it, whatever indentation is dropped. -/
theorem real_dropWhile {front : List Token} (h : ∃ x ∈ front, x.isIndentation = false) :
    (∃ x ∈ front.dropWhile Token.isIndentation, x.isIndentation = false) ∧
      ∀ rest, (front ++ rest).dropWhile Token.isIndentation = front.dropWhile Token.isIndentation ++ rest := by
  induction front with
  | nil =>
    obtain ⟨x, hx, -⟩ := h
    cases hx
  | cons t front ih =>
    cases ht : t.isIndentation with
    | false =>
      rw [List.dropWhile_cons_of_neg (by simp [ht])]
      refine ⟨⟨t, List.mem_cons_self, ht⟩, fun rest => ?_⟩
      rw [List.cons_append, List.dropWhile_cons_of_neg (by simp [ht])]
    | true =>
      obtain ⟨x, hx, hreal⟩ := h
      rcases List.mem_cons.1 hx with rfl | hx
      · rw [ht] at hreal
        cases hreal
      · obtain ⟨hmem, happend⟩ := ih ⟨x, hx, hreal⟩
        rw [List.dropWhile_cons_of_pos ht]
        refine ⟨hmem, fun rest => ?_⟩
        rw [List.cons_append, List.dropWhile_cons_of_pos ht, happend]

theorem dropWhile_of_isIndentation {blanks : List Token} (h : ∀ b ∈ blanks, b.isIndentation = true)
    (rest : List Token) :
    (blanks ++ rest).dropWhile Token.isIndentation = rest.dropWhile Token.isIndentation :=
  List.dropWhile_append_of_pos h

namespace Spread

variable {s t : Cursor}

theorem relayout (h : Spread s t) (l : Layout) : Spread { s with layout := l } { t with layout := l } :=
  ⟨h.parens, rfl, h.argumentLimit, h.reports, h.tokens⟩

/-- The token in front of the line break in the two texts is the same one; consuming it leads on. -/
theorem ahead_consume {front blanks back : List Token} {x : Token} (h : Spread s t)
    (hblanks : ∀ b ∈ blanks, b.isIndentation = true) (hopen : parensOver (parensAfter s.parens x.kind) front ≠ 0) :
    Spread (s.consume x (front ++ back)) (t.consume x (front ++ (blanks ++ back.map lowered))) := by
  refine ⟨?_, h.layout, h.argumentLimit, h.reports, ?_⟩
  · simp only [consume, h.parens]
  · by_cases hreal : ∃ y ∈ front, y.isIndentation = false
    · apply Or.inl
      by_cases hparens : parensAfter s.parens x.kind = 0
      · refine ⟨front, blanks, back, ?_, ?_, hblanks, hreal, hopen, rfl⟩
        · simp only [consume, if_pos hparens]
        · simp only [consume, h.parens, if_pos hparens]
      · obtain ⟨hreal', hdrop⟩ := real_dropWhile hreal
        refine ⟨front.dropWhile Token.isIndentation, blanks, back, ?_, ?_, hblanks, hreal', ?_, rfl⟩
        · simp only [consume, if_neg hparens, hdrop]
        · simp only [consume, h.parens, if_neg hparens, hdrop]
        · rwa [parensOver_dropWhile]
    · -- the blanks that are left in front of the line break, and those behind it, are stepped over
      have hfront : ∀ y ∈ front, y.isIndentation = true := by
        intro y hy
        by_contra hne
        exact hreal ⟨y, hy, Bool.eq_false_iff.2 hne⟩
      rw [parensOver_of_isIndentation hfront] at hopen
      refine Or.inr ⟨?_, fun hclosed => absurd hclosed hopen⟩
      simp only [consume, h.parens, if_neg hopen, dropWhile_of_isIndentation hfront,
        dropWhile_of_isIndentation hblanks, dropWhile_lowered]

theorem behind_consume {x : Token} {rest : List Token} (h : Spread s t) :
    Spread (s.consume x rest) (t.consume (lowered x) (rest.map lowered)) := by
  refine ⟨?_, h.layout, h.argumentLimit, h.reports, Or.inr ⟨?_, fun _ => rfl⟩⟩
  · simp only [consume, h.parens]
    rfl
  · have hkind : (lowered x).kind = x.kind := rfl
    simp only [consume, h.parens, hkind]
    split
    · rfl
    · exact dropWhile_lowered rest

/-- The next tokens of the two texts are the same but for their lines; both stand on the lines of the tokens in
front of them, or neither does. -/
theorem head (h : Spread s t) {x : Token} {rest : List Token} (hs : s.rest = x :: rest) :
    ∃ x' rest', t.rest = x' :: rest' ∧ x'.unplaced = x.unplaced ∧
      (s.parens = 0 → (x'.line = t.lastLine ↔ x.line = s.lastLine)) ∧
      Spread (s.consume x rest) (t.consume x' rest') := by
  rcases h.tokens with ⟨front, blanks, back, hrest, hrest', hblanks, hreal, hopen, hline⟩ | ⟨hrest', hline⟩
  · cases front with
    | nil =>
      obtain ⟨y, hy, -⟩ := hreal
      cases hy
    | cons y front =>
      rw [hs] at hrest
      obtain ⟨rfl, rfl⟩ := List.cons.inj hrest
      refine ⟨x, _, hrest', rfl, fun _ => by rw [hline], h.ahead_consume hblanks ?_⟩
      rwa [← parensOver_cons]
  · rw [hs] at hrest'
    refine ⟨lowered x, rest.map lowered, hrest', rfl, fun hparens => ?_, h.behind_consume⟩
    rw [hline hparens]
    show x.line + 1 = s.lastLine + 1 ↔ _
    omega

theorem nil (h : Spread s t) (hs : s.rest = []) : t.rest = [] := by
  rcases h.tokens with ⟨front, blanks, back, hrest, -, -, ⟨x, hx, -⟩, -, -⟩ | ⟨hrest', -⟩
  · rw [hs] at hrest
    rw [(List.append_eq_nil_iff.1 hrest.symm).1] at hx
    cases hx
  · rw [hrest', hs]
    rfl

theorem halts (h : Spread s t) {p : Kind → Bool} (hs : s.Halts p) : t.Halts p := by
  cases hrest : s.rest with
  | nil =>
    intro x hx
    rw [h.nil hrest] at hx
    cases hx
  | cons x rest =>
    obtain ⟨x', rest', hrest', hx, -, -⟩ := h.head hrest
    apply Reading.halts_of_rest hrest'
    rw [kind_of_unplaced hx]
    exact hs x (by rw [hrest]; rfl)

theorem complain (h : Spread s t) (x x' : Token) (problem problem' : Problem) :
    Spread (s.complain x problem) (t.complain x' problem') := by
  refine ⟨h.parens, h.layout, h.argumentLimit, ?_, h.tokens⟩
  simp only [Cursor.complain, List.length_append, h.reports]
  rfl

/-- The indentation in front of the next real token is the same but for its line. -/
theorem begun (h : Spread s t) :
    (lineRun t.rest).1.map Token.lexeme = (lineRun s.rest).1.map Token.lexeme ∧ Spread s.begun t.begun := by
  rcases h.tokens with ⟨front, blanks, back, hrest, hrest', hblanks, hreal, hopen, hline⟩ | ⟨hrest', hline⟩
  · have hrun := fun rest => lineRunFrom_append_of_real hreal [] rest
    refine ⟨?_, h.parens, h.layout, h.argumentLimit, h.reports, Or.inl ?_⟩
    · rw [hrest, hrest', lineRun, lineRun, hrun, hrun]
    · refine ⟨front.dropWhile Token.isIndentation, blanks, back, ?_, ?_, hblanks, (real_dropWhile hreal).1, ?_, hline⟩
      · simp only [Cursor.begun, lineRun_snd, hrest, (real_dropWhile hreal).2]
      · simp only [Cursor.begun, lineRun_snd, hrest', (real_dropWhile hreal).2]
      · rwa [parensOver_dropWhile]
  · have hrun : lineRun t.rest = ((lineRun s.rest).1.map lowered, (lineRun s.rest).2.map lowered) := by
      rw [hrest']
      exact lineRunFrom_lowered [] s.rest
    refine ⟨?_, h.parens, h.layout, h.argumentLimit, h.reports, Or.inr ⟨?_, hline⟩⟩
    · rw [hrun, List.map_map]
      rfl
    · simp only [Cursor.begun, hrun]

end Spread

end Cursor

end Offside
