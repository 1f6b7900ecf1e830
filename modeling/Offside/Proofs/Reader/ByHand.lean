import Offside.Proofs.Reader.Margins
import Offside.Proofs.Reader.Parentheses
import Offside.Proofs.Reader.Phrases
import Offside.Token.Lexer

/-!
# Reading with margins

The steps here read statements with margins.  Which line belongs to which block they decide by the margins alone; the
layout of their cursor stays as it was at the start.  Whenever a statement or a method is to be read, they note the
margins and the number of parentheses that are open.

* `Entry`, `Tally` — notes, and a cursor with its margins and the notes so far;
* `ByHand.declaration`, `ByHand.method`, `ByHand.program` — reading with margins;
* `ByHand.Notes`, `ByHand.notes_declaration` — each statement and each method that is to be read is noted, and stays so;
* `Reading.Blind` — steps that do not look at the layout;
* `ByHand.Follows` — steps with margins that go like steps without, with one lemma for each step;
* `ByHand.program_margins` — what is noted about a whole text.
-/

set_option autoImplicit false

namespace Offside

open Token (Kind)

/-! ## Reading with margins -/

/-- The margins and the number of open parentheses when a statement or a method is to be read. -/
structure Entry where
  margins : Margins
  parens : Nat
  deriving DecidableEq, Repr

/-- A cursor, the margins, and what has been noted so far. -/
structure Tally where
  cursor : Cursor
  margins : Margins
  entries : List Entry

/-- What is in front of a text. -/
def Tally.start (argumentLimit : Nat) (stream : Token.Stream) : Tally :=
  ⟨.start argumentLimit stream, .start, []⟩

/-- A step of reading with margins. -/
abbrev ByHand := EStateM Abandoned Tally

namespace ByHand

/-- A step within a line. -/
def within {α : Type} (step : Reading α) : ByHand α :=
  fun d =>
    match step d.cursor with
    | .ok a s => .ok a { d with cursor := s }
    | .error e s => .error e { d with cursor := s }

/-- Notes the margins and the open parentheses. -/
def enter : ByHand Unit :=
  fun d => .ok () { d with entries := d.entries ++ [⟨d.margins, d.cursor.parens⟩] }

/-- Puts `fallback` in place of a statement that was given up and skips to the next one. -/
def recovering {α : Type} (body : ByHand α) (fallback : α) : ByHand α :=
  fun d =>
    match body d with
    | .ok a d' => .ok a d'
    | .error _ d' => .ok fallback { d' with cursor := d'.cursor.recover }

/-- Steps over the indentation of a line of the innermost block. -/
def beginLine : ByHand Unit :=
  fun d =>
    let r := lineRun d.cursor.rest
    let moved := { d.cursor with rest := r.2 }
    if d.margins.continues r.1 then .ok () { d with cursor := moved }
    else .error ⟨⟩ { d with cursor := moved.complain moved.current (d.margins.misfit r.1) }

/-- The items on the lines of the innermost block; an item that could not be read is left out. -/
def items {α : Type} (item : ByHand (Option α)) : Nat → ByHand (List α)
  | 0 => pure []
  | fuel + 1 => fun d =>
    let r := lineRun d.cursor.rest
    if r.2.isEmpty || d.margins.closes r.1 then .ok [] d
    else
      (do
        let first ← item
        let more ← items item fuel
        return first.toList ++ more : ByHand (List α)) d

/-- Leaves the innermost block behind a step, however the step ends. -/
def closing {α : Type} (body : ByHand α) : ByHand α :=
  fun d =>
    match body d with
    | .ok a d' => .ok a { d' with margins := d'.margins.leave }
    | .error e d' => .error e { d' with margins := d'.margins.leave }

/-- The lines of the block behind a colon, from the first one, which tells the width of the block. -/
def lines {α : Type} (fuel : Nat) (item : ByHand (Option α)) : ByHand (List α) :=
  fun d =>
    let deeper := d.margins.deepen
    let r := lineRun d.cursor.rest
    match deeper.widen? r.1 with
    | .error problem =>
      .error ⟨⟩ { d with margins := deeper, cursor := d.cursor.complain (d.cursor.firstOf r.2) problem }
    | .ok widened => items item fuel { d with margins := widened }

/-- The items of the block behind a colon. -/
def indented {α : Type} (fuel : Nat) (item : ByHand (Option α)) : ByHand (List α) :=
  closing (lines fuel item)

/-- Consumes an `else` on the next line if that line is a line of the innermost block. -/
def acceptElse : ByHand Bool :=
  fun d =>
    let r := lineRun d.cursor.rest
    match r.2 with
    | [] => .ok false d
    | t :: ts =>
      if t.kind == .elseWord && d.margins.continues r.1 then
        .ok true { d with cursor := { d.cursor with rest := ts, lastLine := t.line } }
      else .ok false d

/-- The statements of the block behind a colon. -/
def block (fuel : Nat) (item : ByHand (Stmt Unit)) : ByHand (List (Stmt Unit)) :=
  indented fuel (some <$> item)

/-- A function or method behind its keyword; `what` says which of the two. -/
def routine (fuel : Nat) (item : ByHand (Stmt Unit)) (what : String) : ByHand (Routine Unit) := do
  let name ← within (Reading.expect .identifier (what ++ " name"))
  let params ← within (Reading.enclosedParams fuel what)
  let type ← within Reading.returnType
  let _ ← within (Reading.expect .colon ("':' before " ++ what ++ " body"))
  let body ← block fuel item
  return .mk name params body type

/-- A method on a line of its own. -/
def methodLine (fuel : Nat) (item : ByHand (Stmt Unit)) : ByHand (Routine Unit) := do
  beginLine
  let _ ← within (Reading.expect .functionWord "method declaration")
  routine fuel item "method"

/-- One line of a class body, which is noted; a broken method is left out. -/
def method (fuel : Nat) (item : ByHand (Stmt Unit)) : ByHand (Option (Routine Unit)) := do
  enter
  recovering (some <$> methodLine fuel item) none

/-- A class behind its keyword. -/
def classDef (fuel : Nat) (item : ByHand (Stmt Unit)) : ByHand (Stmt Unit) := do
  let name ← within (Reading.expect .identifier "class name")
  let parent ← within Reading.superclass
  let _ ← within (Reading.expect .colon "':' before class body")
  let methods ← indented fuel (method fuel item)
  return .classDef name parent methods

/-- What follows `else`: a further branch, read by `next`, or a block. -/
def alternative (limit : Nat) (item next : ByHand (Stmt Unit)) : ByHand (Stmt Unit) := do
  match ← within (Reading.accept? (· == .ifWord)) with
  | some _ => next
  | none =>
    let _ ← within (Reading.expect .colon "':' after 'else'")
    return .block (← block limit item)

/-- What is done otherwise, if there is an `else`. -/
def otherwise (limit : Nat) (item next : ByHand (Stmt Unit)) : ByHand (Option (Stmt Unit)) := do
  if ← acceptElse then return some (← alternative limit item next) else return none

/-- A branch behind `if`, with as many `else if` as follow. -/
def branch (limit : Nat) (item : ByHand (Stmt Unit)) : Nat → ByHand (Stmt Unit)
  | 0 => within (Reading.abandon (.expected "expression"))
  | fuel + 1 => do
    let condition ← within (Reading.expression limit)
    let _ ← within (Reading.expect .colon "':' after if condition")
    let whenTrue ← block limit item
    let whenFalse ← otherwise limit item (branch limit item fuel)
    return .branch condition (.block whenTrue) whenFalse

/-- A loop behind `while`. -/
def loop (fuel : Nat) (item : ByHand (Stmt Unit)) : ByHand (Stmt Unit) := do
  let condition ← within (Reading.expression fuel)
  let _ ← within (Reading.expect .colon "':' after while condition")
  let body ← block fuel item
  return .loop condition (.block body)

/-- The statement that the token `t`, which has been consumed, introduces. -/
def statementFrom (fuel : Nat) (item : ByHand (Stmt Unit)) (t : Token) : ByHand (Stmt Unit) := do
  match t.kind with
  | .classWord => classDef fuel item
  | .functionWord => return .define (← routine fuel item "function")
  | .ifWord => branch fuel item fuel
  | .printWord => return .print (← within (Reading.expression fuel))
  | .returnWord => within (Reading.givenBack fuel t)
  | .whileWord => loop fuel item
  | .colon => return .block (← block fuel item)
  | _ => within (Reading.assignment fuel)

/-- A statement behind its indentation; `item` reads the statements of its blocks. -/
def statement (fuel : Nat) (item : ByHand (Stmt Unit)) : ByHand (Stmt Unit) := do
  match ← within (Reading.accept? Reading.introduces) with
  | none => within (Reading.assignment fuel)
  | some t => statementFrom fuel item t

/-- A statement on a line of its own. -/
def statementLine (fuel : Nat) (item : ByHand (Stmt Unit)) : ByHand (Stmt Unit) := do
  beginLine
  let stmt ← statement fuel item
  within Reading.endStatement
  return stmt

/-- A statement of at most `fuel` tokens, which is noted; one with an error becomes a statement that does nothing. -/
def declaration : Nat → ByHand (Stmt Unit)
  | 0 => do
    enter
    return .nothing
  | fuel + 1 => do
    enter
    recovering (statementLine (fuel + 1) (declaration fuel)) .nothing

/-- All statements of a text of at most `fuel` tokens. -/
def program (fuel : Nat) : ByHand (List (Stmt Unit)) :=
  items (some <$> declaration fuel) fuel

end ByHand

/-! ## What has been noted -/

namespace ByHand

open Step (Ends Extends extends_pure)

variable {α : Type}

/-- The step loses nothing that was noted. -/
abbrev Grows (q : ByHand α) : Prop :=
  Extends Tally.entries q

/-- The step notes the margins and the open parentheses first of all. -/
def Notes (q : ByHand α) : Prop :=
  ∀ d, Ends (q d) (fun _ d' => d.entries ++ [⟨d.margins, d.cursor.parens⟩] <+: d'.entries)
    (fun _ d' => d.entries ++ [⟨d.margins, d.cursor.parens⟩] <+: d'.entries)

theorem Grows.noted {q : ByHand α} (h : Grows q) : Notes (enter >>= fun _ => q) :=
  fun d => h { d with entries := d.entries ++ [⟨d.margins, d.cursor.parens⟩] }

theorem Notes.grows {q : ByHand α} (h : Notes q) : Grows q :=
  fun d => (h d).mono (fun _ _ hmore => (List.prefix_append _ _).trans hmore)
    fun _ _ hmore => (List.prefix_append _ _).trans hmore

theorem grows_within (step : Reading α) : Grows (within step) := by
  intro d
  unfold within
  split
  · exact List.prefix_rfl
  · exact List.prefix_rfl

theorem Grows.recovering {body : ByHand α} (h : Grows body) (fallback : α) : Grows (recovering body fallback) := by
  intro d
  have hd := h d
  unfold ByHand.recovering
  cases hbody : body d with
  | ok a d' =>
    rw [hbody] at hd
    exact hd
  | error e d' =>
    rw [hbody] at hd
    exact hd

theorem grows_beginLine : Grows beginLine := by
  intro d
  unfold beginLine
  dsimp only
  split
  · exact List.prefix_rfl
  · exact List.prefix_rfl

theorem Grows.items {item : ByHand (Option α)} (h : Grows item) (fuel : Nat) : Grows (items item fuel) := by
  induction fuel with
  | zero => exact extends_pure []
  | succ fuel ih =>
    intro d
    unfold ByHand.items
    dsimp only
    split
    · exact List.prefix_rfl
    · exact (h.bind fun first => ih.map fun more => first.toList ++ more) d

theorem Grows.indented {item : ByHand (Option α)} (h : Grows item) (fuel : Nat) : Grows (indented fuel item) := by
  have hlines : Grows (lines fuel item) := by
    intro d
    unfold lines
    dsimp only
    split
    · exact List.prefix_rfl
    · next widened _ => exact h.items fuel { d with margins := widened }
  intro d
  have hd := hlines d
  unfold ByHand.indented closing
  cases hbody : lines fuel item d with
  | ok a d' =>
    rw [hbody] at hd
    exact hd
  | error e d' =>
    rw [hbody] at hd
    exact hd

theorem grows_acceptElse : Grows acceptElse := by
  intro d
  unfold acceptElse
  dsimp only
  split
  · exact List.prefix_rfl
  · split
    · exact List.prefix_rfl
    · exact List.prefix_rfl

section Statements

variable {item : ByHand (Stmt Unit)}

theorem Grows.block (h : Grows item) (fuel : Nat) : Grows (block fuel item) :=
  Grows.indented (h.map some) fuel

theorem Grows.routine (h : Grows item) (fuel : Nat) (what : String) : Grows (routine fuel item what) := by
  refine (grows_within _).bind fun name => (grows_within _).bind fun params => ?_
  refine (grows_within _).bind fun type => (grows_within _).bind fun _ => ?_
  exact (h.block fuel).map fun body => Routine.mk name params body type

theorem Grows.notes_method (h : Grows item) (fuel : Nat) : Notes (method fuel item) := by
  have hline : Grows (methodLine fuel item) :=
    grows_beginLine.bind fun _ => (grows_within _).bind fun _ => h.routine fuel "method"
  exact (Grows.recovering (hline.map some) none).noted

theorem Grows.classDef (h : Grows item) (fuel : Nat) : Grows (classDef fuel item) := by
  refine (grows_within _).bind fun name => (grows_within _).bind fun parent => (grows_within _).bind fun _ => ?_
  exact ((h.notes_method fuel).grows.indented fuel).map (Stmt.classDef name parent)

theorem Grows.otherwise {next : ByHand (Stmt Unit)} (h : Grows item) (hnext : Grows next) (limit : Nat) :
    Grows (otherwise limit item next) := by
  have halternative : Grows (alternative limit item next) := by
    refine (grows_within _).bind fun word => ?_
    cases word with
    | some _ => exact hnext
    | none => exact (grows_within _).bind fun _ => (h.block limit).map Stmt.block
  refine grows_acceptElse.bind fun found => ?_
  cases found with
  | true => exact halternative.map some
  | false => exact extends_pure none

theorem Grows.branch (h : Grows item) (limit fuel : Nat) : Grows (branch limit item fuel) := by
  induction fuel with
  | zero => exact grows_within _
  | succ fuel ih =>
    refine (grows_within _).bind fun condition => (grows_within _).bind fun _ => (h.block limit).bind fun whenTrue => ?_
    exact (h.otherwise ih limit).map fun whenFalse => Stmt.branch condition (.block whenTrue) whenFalse

theorem Grows.loop (h : Grows item) (fuel : Nat) : Grows (loop fuel item) := by
  refine (grows_within _).bind fun condition => (grows_within _).bind fun _ => ?_
  exact (h.block fuel).map fun body => Stmt.loop condition (.block body)

theorem Grows.statementFrom (h : Grows item) (fuel : Nat) (t : Token) : Grows (statementFrom fuel item t) := by
  unfold ByHand.statementFrom
  generalize t.kind = kind
  cases kind with
  | classWord => exact h.classDef fuel
  | functionWord => exact (h.routine fuel "function").map Stmt.define
  | ifWord => exact h.branch fuel fuel
  | printWord => exact (grows_within _).map Stmt.print
  | whileWord => exact h.loop fuel
  | colon => exact (h.block fuel).map Stmt.block
  | _ => exact grows_within _

theorem Grows.statementLine (h : Grows item) (fuel : Nat) : Grows (statementLine fuel item) := by
  have hstatement : Grows (statement fuel item) := by
    refine (grows_within _).bind fun word => ?_
    cases word with
    | none => exact grows_within _
    | some t => exact h.statementFrom fuel t
  exact grows_beginLine.bind fun _ => hstatement.bind fun stmt => (grows_within _).bind fun _ => extends_pure stmt

/-- Whenever a statement is to be read, that is noted. -/
theorem notes_declaration (fuel : Nat) : Notes (declaration fuel) := by
  induction fuel with
  | zero => exact Grows.noted (extends_pure _)
  | succ fuel ih => exact ((ih.grows.statementLine (fuel + 1)).recovering _).noted

end Statements

end ByHand

/-! ## Steps that do not look at the layout -/

namespace Reading

variable {α β : Type}

/-- The end of a step, in a layout. -/
def inLayout (l : Layout) : EStateM.Result Abandoned Cursor α → EStateM.Result Abandoned Cursor α
  | .ok a t => .ok a { t with layout := l }
  | .error e t => .error e { t with layout := l }

/-- What the step does does not depend on the layout, and it leaves the layout as it is. -/
def Blind (p : Reading α) : Prop :=
  ∀ (s : Cursor) (l : Layout), p { s with layout := l } = inLayout l (p s)

theorem Blind.bind {p : Reading α} {f : α → Reading β} (hp : Blind p) (hf : ∀ a, Blind (f a)) : Blind (p >>= f) := by
  intro s l
  have hps := hp s l
  cases h : p s with
  | ok a t =>
    rw [h] at hps
    rw [Step.bind_of_ok h, Step.bind_of_ok hps]
    exact hf a t l
  | error e t =>
    rw [h] at hps
    rw [Step.bind_of_error h, Step.bind_of_error hps]
    rfl

theorem blind_accept? (p : Kind → Bool) : Blind (accept? p) := by
  rintro ⟨_ | ⟨t, ts⟩, endLine, lastLine, parens, outer, limit, reports⟩ l
  · rfl
  · simp only [accept?]
    split
    · rfl
    · rfl

theorem blind_limitCount (count : Nat) (what : String) : Blind (limitCount count what) := by
  intro s l
  unfold limitCount
  show (if s.argumentLimit ≤ count then _ else _) = inLayout l (if s.argumentLimit ≤ count then _ else _)
  split
  · rfl
  · rfl

/-- Steps within a line do not look at the layout. -/
theorem composes_blind : Composes fun {α} (p : Reading α) => Blind p where
  pure _ := fun _ _ => rfl
  bind hp hf := hp.bind hf
  check _ := fun _ _ => rfl
  accept? _ := blind_accept? _
  abandon _ := fun _ _ => rfl
  limitCount := blind_limitCount
  misassigned _ := fun _ _ => rfl

theorem blind_givenBack (fuel : Nat) (keyword : Token) : Blind (givenBack fuel keyword) := by
  intro s l
  have hvalue := composes_blind.map (fun e => Stmt.giveBack keyword (some e)) (composes_blind.expression fuel)
  show (if !s.rest.isEmpty && s.current.line == keyword.line then
      (fun e => Stmt.giveBack keyword (some e)) <$> expression fuel else pure (Stmt.giveBack keyword none) :
        Reading (Stmt Unit)) { s with layout := l } =
    inLayout l ((if !s.rest.isEmpty && s.current.line == keyword.line then
      (fun e => Stmt.giveBack keyword (some e)) <$> expression fuel else pure (Stmt.giveBack keyword none) :
        Reading (Stmt Unit)) s)
  split
  · exact hvalue s l
  · rfl

theorem blind_endStatement : Blind endStatement := by
  rintro ⟨_ | ⟨t, ts⟩, endLine, lastLine, parens, outer, limit, reports⟩ l
  · rfl
  · simp only [endStatement]
    split
    · rfl
    · rfl

end Reading

namespace Cursor

theorem recover_layout (s : Cursor) : s.recover.layout = s.layout := by
  unfold recover
  split
  · rfl
  · rfl

theorem recover_parens (s : Cursor) : s.recover.parens = 0 := by
  unfold recover
  split
  · rfl
  · rfl

theorem recover_inLayout (s : Cursor) (l : Layout) :
    recover { s with layout := l } = { s.recover with layout := l } := by
  obtain ⟨_ | ⟨t, ts⟩, endLine, lastLine, parens, outer, limit, reports⟩ := s
  · rfl
  · rfl

end Cursor

/-! ## Reading with margins is reading -/

open Reading (Blind Closes)

/-- What is noted is right: the margins are sound and no parenthesis is open. -/
structure Entry.Sound (e : Entry) : Prop where
  margins : e.margins.Sound
  parens : e.parens = 0

/-- A cursor in the layout `l`, and a tally with the margins of this layout. -/
structure Tally.Mirrors (l : Layout) (s : Cursor) (d : Tally) : Prop where
  layout : s.layout = l
  cursor : d.cursor = { s with layout := .top }
  margins : d.margins = l.margins
  entries : ∀ e ∈ d.entries, e.Sound

namespace Tally.Mirrors

variable {l : Layout} {s : Cursor} {d : Tally}

theorem rest (h : Mirrors l s d) : d.cursor.rest = s.rest := by
  rw [h.cursor]

theorem continues (h : Mirrors l s d) (hl : l.Nested) (run : List Token) :
    d.margins.continues run = s.layout.continues run := by
  rw [h.margins, h.layout]
  exact Layout.continues_margins hl run

end Tally.Mirrors

namespace ByHand

open Step
open Tally (Mirrors)

variable {α β γ : Type} {p : Reading α} {q : ByHand α}

/-- Reading with margins goes like reading, from wherever no parenthesis is open.  In both ways the blocks around stay
open, also behind an error; behind a value no parenthesis is open. -/
def Follows (p : Reading α) (q : ByHand α) : Prop :=
  ∀ ⦃l : Layout⦄ ⦃s : Cursor⦄ ⦃d : Tally⦄, l.Nested → Mirrors l s d → s.parens = 0 →
    Pairs (fun a t a' d' => a = a' ∧ Mirrors l t d' ∧ t.parens = 0) (fun t d' => Mirrors l t d') (p s) (q d)

theorem follows_pure (a : α) : Follows (pure a) (pure a) :=
  fun _ _ _ _ h hparens => ⟨rfl, h, hparens⟩

theorem Follows.bind {f : α → Reading β} {g : α → ByHand β} (hp : Follows p q) (hf : ∀ a, Follows (f a) (g a)) :
    Follows (p >>= f) (q >>= g) := by
  intro l s d hl h hparens
  refine (hp hl h hparens).bind fun a t a' d' ht => ?_
  obtain ⟨rfl, h', hparens'⟩ := ht
  exact hf a hl h' hparens'

theorem Follows.map (f : α → β) (hp : Follows p q) : Follows (f <$> p) (f <$> q) :=
  hp.bind fun a => follows_pure (f a)

/-- A step within a line, which ends behind the parentheses that it opens. -/
theorem follows_within (hblind : Blind p) (hcloses : Closes 0 p) : Follows p (within p) := by
  intro l s d hl h hparens
  have hkept : p s = Reading.inLayout l (p s) := by
    rw [← h.layout]
    exact hblind s s.layout
  have htop : p d.cursor = Reading.inLayout .top (p s) := by
    rw [h.cursor]
    exact hblind s .top
  have hends := hcloses 0 s hparens
  unfold within
  rw [htop]
  cases hps : p s with
  | ok a t =>
    rw [hps] at hkept
    have hlayout : t.layout = l := congrArg Cursor.layout (EStateM.Result.ok.inj hkept).2
    exact ⟨rfl, ⟨hlayout, rfl, h.margins, h.entries⟩, hends.value_of_ok hps⟩
  | error e t =>
    rw [hps] at hkept
    have hlayout : t.layout = l := congrArg Cursor.layout (EStateM.Result.error.inj hkept).2
    exact ⟨rfl, hlayout, rfl, h.margins, h.entries⟩

theorem follows_beginLine : Follows Reading.beginLine beginLine := by
  intro l s d hl h hparens
  unfold Reading.beginLine beginLine
  simp only [h.rest, h.continues hl]
  split
  · exact ⟨trivial, ⟨h.layout, by rw [h.cursor], h.margins, h.entries⟩, hparens⟩
  · have hmisfit : d.margins.misfit (lineRun s.rest).1 = s.layout.misfit (lineRun s.rest).1 := by
      rw [h.margins, h.layout]
      exact Layout.misfit_margins l _
    refine ⟨rfl, h.layout, ?_, h.margins, h.entries⟩
    rw [hmisfit, h.cursor]
    rfl

/-- Noting where a statement or a method is to be read. -/
theorem Follows.enter (hp : Follows p q) : Follows p (enter >>= fun _ => q) := by
  intro l s d hl h hparens
  have hentry : Entry.Sound ⟨d.margins, d.cursor.parens⟩ := by
    constructor
    · rw [h.margins]
      exact hl.sound_margins
    · rw [h.cursor]
      exact hparens
  apply hp hl _ hparens
  refine ⟨h.layout, h.cursor, h.margins, fun e he => ?_⟩
  rcases List.mem_append.1 he with he | he
  · exact h.entries e he
  · obtain rfl := List.mem_singleton.1 he
    exact hentry

/-- A statement that was given up leaves no parenthesis open, however many it was inside of. -/
theorem Follows.recovering (hp : Follows p q) (fallback : α) :
    Follows (Reading.recovering p fallback) (recovering q fallback) := by
  intro l s d hl h hparens
  have hends := hp hl h hparens
  unfold Reading.recovering ByHand.recovering
  cases hps : p s with
  | ok a t =>
    cases hqd : q d with
    | ok a' d' =>
      rw [hps, hqd] at hends
      exact hends
    | error e d' =>
      rw [hps, hqd] at hends
      exact hends.elim
  | error e t =>
    cases hqd : q d with
    | ok a' d' =>
      rw [hps, hqd] at hends
      exact hends.elim
    | error e' d' =>
      rw [hps, hqd] at hends
      obtain ⟨-, h'⟩ := hends
      refine ⟨rfl, ⟨t.recover_layout.trans h'.layout, ?_, h'.margins, h'.entries⟩, t.recover_parens⟩
      show d'.cursor.recover = _
      rw [h'.cursor]
      exact t.recover_inLayout .top

theorem Follows.items {item : Reading (Option α)} {item' : ByHand (Option α)} (hitem : Follows item item')
    (fuel : Nat) : Follows (Reading.items item fuel) (items item' fuel) := by
  induction fuel with
  | zero => exact follows_pure []
  | succ fuel ih =>
    intro l s d hl h hparens
    have hcloses : d.margins.closes (lineRun s.rest).1 = s.layout.closes (lineRun s.rest).1 := by
      rw [h.margins, h.layout]
      exact Layout.closes_margins hl _
    unfold Reading.items ByHand.items
    simp only [h.rest, hcloses]
    split
    · exact ⟨rfl, h, hparens⟩
    · exact (hitem.bind fun first => ih.map fun more => first.toList ++ more) hl h hparens

/-- Behind a block the layout and the margins are those around it, if they still belong together in the block. -/
theorem pairs_closing {l inner : Layout} {around : Cursor} {start : Tally} {body : Reading α} {body' : ByHand α}
    (hl : l.Nested) (hopens : l.Opens inner) (hlayout : around.layout = l)
    (h : Pairs (fun a t a' d' => a = a' ∧ Mirrors inner t d' ∧ t.parens = 0) (fun t d' => Mirrors inner t d')
      (body { around with layout := inner }) (body' start)) :
    Pairs (fun a t a' d' => a = a' ∧ Mirrors l t d' ∧ t.parens = 0) (fun t d' => Mirrors l t d')
      (Reading.within inner body around) (closing body' start) := by
  have hleave : ∀ {t : Cursor} {d : Tally}, Mirrors inner t d →
      Mirrors l { t with layout := around.layout } { d with margins := d.margins.leave } := by
    intro t d h
    refine ⟨hlayout, h.cursor, ?_, h.entries⟩
    show d.margins.leave = l.margins
    rw [h.margins]
    exact hopens.leave_margins hl
  unfold Reading.within closing
  cases hp : body { around with layout := inner } with
  | ok a t =>
    cases hq : body' start with
    | ok a' d' =>
      rw [hp, hq] at h
      exact ⟨h.1, hleave h.2.1, h.2.2⟩
    | error e d' =>
      rw [hp, hq] at h
      exact h.elim
  | error e t =>
    cases hq : body' start with
    | ok a' d' =>
      rw [hp, hq] at h
      exact h.elim
    | error e' d' =>
      rw [hp, hq] at h
      exact ⟨h.1, hleave h.2⟩

/-- A block is left as it was opened: behind its lines, behind an error in them, and behind an error in front of them,
when its width has not been noted. -/
theorem Follows.indented {item : Reading (Option α)} {item' : ByHand (Option α)} (hitem : Follows item item')
    (fuel : Nat) : Follows (Reading.indented fuel item) (indented fuel item') := by
  intro l s d hl h hparens
  have hwiden : d.margins.deepen.widen? (lineRun s.rest).1 = (s.layout.enter? (lineRun s.rest).1).map Layout.margins := by
    rw [h.margins, h.layout]
    exact Layout.widen?_margins l _
  cases henter : s.layout.enter? (lineRun s.rest).1 with
  | error problem =>
    have hread : Reading.indented fuel item s = .error ⟨⟩ (s.complain (s.firstOf (lineRun s.rest).2) problem) := by
      simp only [Reading.indented, henter]
      rfl
    have hread' : ByHand.indented fuel item' d = .error ⟨⟩
        { d with
          margins := d.margins.deepen.leave
          cursor := d.cursor.complain (d.cursor.firstOf (lineRun s.rest).2) problem } := by
      simp only [ByHand.indented, closing, lines, h.rest, hwiden, henter, Except.map]
    rw [hread, hread']
    refine ⟨rfl, h.layout, ?_, ?_, h.entries⟩
    · rw [h.cursor]
      rfl
    · rw [h.margins]
      exact hl.leave_deepen
  | ok inner =>
    have hopens : l.Opens inner := by
      rw [← h.layout]
      exact (Layout.enter?_eq_ok_iff.1 henter).1
    have hread : Reading.indented fuel item s = Reading.within inner (Reading.items item fuel) s := by
      simp only [Reading.indented, henter]
    have hlines : lines fuel item' d = ByHand.items item' fuel { d with margins := inner.margins } := by
      simp only [lines, h.rest, hwiden, henter, Except.map]
    have hinner : Mirrors inner { s with layout := inner } { d with margins := inner.margins } :=
      ⟨rfl, by rw [h.cursor], rfl, h.entries⟩
    have hends := hitem.items fuel (.opens hl hopens) hinner hparens
    rw [← hlines] at hends
    rw [hread]
    exact pairs_closing hl hopens h.layout hends

theorem follows_acceptElse : Follows Reading.acceptElse acceptElse := by
  intro l s d hl h hparens
  unfold Reading.acceptElse acceptElse
  simp only [h.rest, h.continues hl]
  cases (lineRun s.rest).2 with
  | nil => exact ⟨rfl, h, hparens⟩
  | cons t ts =>
    dsimp only
    split
    · exact ⟨rfl, ⟨h.layout, by rw [h.cursor], h.margins, h.entries⟩, hparens⟩
    · exact ⟨rfl, h, hparens⟩

/-! ## Statements -/

section Statements

variable {item : Reading (Stmt Unit)} {item' : ByHand (Stmt Unit)}

theorem follows_expect (kind : Kind) (hkind : kind.isIndentation = false) (hright : (Kind.rightParen == kind) = false)
    (hleft : (Kind.leftParen == kind) = false) (what : String) :
    Follows (Reading.expect kind what) (within (Reading.expect kind what)) :=
  follows_within (Reading.composes_blind.expect hkind what) (Reading.closes_expect hright hleft what)

theorem follows_expression (fuel : Nat) : Follows (Reading.expression fuel) (within (Reading.expression fuel)) :=
  follows_within (Reading.composes_blind.expression fuel) (Reading.closes_expression fuel)

theorem follows_assignment (fuel : Nat) : Follows (Reading.assignment fuel) (within (Reading.assignment fuel)) :=
  follows_within (Reading.composes_blind.assignment fuel) (Reading.closes_assignment fuel)

theorem Follows.block (hitem : Follows item item') (fuel : Nat) : Follows (Reading.block fuel item) (block fuel item') :=
  (hitem.map some).indented fuel

theorem Follows.routine (hitem : Follows item item') (fuel : Nat) (what : String) :
    Follows (Reading.routine fuel item what) (routine fuel item' what) := by
  refine (follows_expect .identifier rfl rfl rfl _).bind fun name => ?_
  refine (follows_within (Reading.composes_blind.enclosedParams fuel what)
    (Reading.closes_enclosedParams fuel what)).bind fun params => ?_
  refine (follows_within Reading.composes_blind.returnType Reading.closes_returnType).bind fun type => ?_
  refine (follows_expect .colon rfl rfl rfl _).bind fun _ => ?_
  exact (hitem.block fuel).map fun body => Routine.mk name params body type

theorem Follows.method (hitem : Follows item item') (fuel : Nat) :
    Follows (Reading.method fuel item) (method fuel item') := by
  have hline : Follows (Reading.methodLine fuel item) (methodLine fuel item') := by
    refine follows_beginLine.bind fun _ => (follows_expect .functionWord rfl rfl rfl _).bind fun _ => ?_
    exact hitem.routine fuel "method"
  exact ((hline.map some).recovering none).enter

theorem Follows.classDef (hitem : Follows item item') (fuel : Nat) :
    Follows (Reading.classDef fuel item) (classDef fuel item') := by
  refine (follows_expect .identifier rfl rfl rfl _).bind fun name => ?_
  refine (follows_within Reading.composes_blind.superclass Reading.closes_superclass).bind fun parent => ?_
  refine (follows_expect .colon rfl rfl rfl _).bind fun _ => ?_
  exact ((hitem.method fuel).indented fuel).map (Stmt.classDef name parent)

theorem follows_accept? {p : Kind → Bool} (hindent : ∀ k, p k = true → k.isIndentation = false)
    (hright : p .rightParen = false) (hleft : p .leftParen = false) :
    Follows (Reading.accept? p) (within (Reading.accept? p)) := by
  have hcloses : Closes 0 (Reading.accept? p >>= pure) :=
    Reading.closes_accepting_plain hright hleft (Reading.closes_pure none) fun t => Reading.closes_pure (some t)
  rw [bind_pure] at hcloses
  exact follows_within (Reading.composes_blind.accept? hindent) hcloses

theorem Follows.otherwise {next : Reading (Stmt Unit)} {next' : ByHand (Stmt Unit)} (hitem : Follows item item')
    (hnext : Follows next next') (limit : Nat) :
    Follows (Reading.otherwise limit item next) (otherwise limit item' next') := by
  have halternative : Follows (Reading.alternative limit item next) (alternative limit item' next') := by
    refine (follows_accept? (fun k hk => ?_) rfl rfl).bind fun word => ?_
    · rw [eq_of_beq hk]
      rfl
    · cases word with
      | some _ => exact hnext
      | none =>
        refine (follows_expect .colon rfl rfl rfl _).bind fun _ => ?_
        exact (hitem.block limit).map Stmt.block
  refine follows_acceptElse.bind fun found => ?_
  cases found with
  | true => exact halternative.map some
  | false => exact follows_pure none

theorem Follows.branch (hitem : Follows item item') (limit fuel : Nat) :
    Follows (Reading.branch limit item fuel) (branch limit item' fuel) := by
  induction fuel with
  | zero => exact follows_within (Reading.composes_blind.abandon _) (Reading.closes_abandon _)
  | succ fuel ih =>
    refine (follows_expression limit).bind fun condition => ?_
    refine (follows_expect .colon rfl rfl rfl _).bind fun _ => (hitem.block limit).bind fun whenTrue => ?_
    exact (hitem.otherwise ih limit).map fun whenFalse => Stmt.branch condition (.block whenTrue) whenFalse

theorem Follows.loop (hitem : Follows item item') (fuel : Nat) : Follows (Reading.loop fuel item) (loop fuel item') := by
  refine (follows_expression fuel).bind fun condition => (follows_expect .colon rfl rfl rfl _).bind fun _ => ?_
  exact (hitem.block fuel).map fun body => Stmt.loop condition (.block body)

theorem Follows.statementFrom (hitem : Follows item item') (fuel : Nat) (t : Token) :
    Follows (Reading.statementFrom fuel item t) (statementFrom fuel item' t) := by
  unfold Reading.statementFrom ByHand.statementFrom
  generalize t.kind = kind
  cases kind with
  | classWord => exact hitem.classDef fuel
  | functionWord => exact (hitem.routine fuel "function").map Stmt.define
  | ifWord => exact hitem.branch fuel fuel
  | printWord => exact (follows_expression fuel).map Stmt.print
  | returnWord => exact follows_within (Reading.blind_givenBack fuel t) (Reading.closes_givenBack fuel t)
  | whileWord => exact hitem.loop fuel
  | colon => exact (hitem.block fuel).map Stmt.block
  | _ => exact follows_assignment fuel

theorem Follows.statementLine (hitem : Follows item item') (fuel : Nat) :
    Follows (Reading.statementLine fuel item) (statementLine fuel item') := by
  have hstatement : Follows (Reading.statement fuel item) (statement fuel item') := by
    refine (follows_accept? (fun k hk => ?_) rfl rfl).bind fun word => ?_
    · cases k <;> first | rfl | cases hk
    · cases word with
      | none => exact follows_assignment fuel
      | some t => exact hitem.statementFrom fuel t
  refine follows_beginLine.bind fun _ => hstatement.bind fun stmt => ?_
  exact (follows_within Reading.blind_endStatement Reading.closes_endStatement).bind fun _ => follows_pure stmt

theorem follows_declaration (fuel : Nat) : Follows (Reading.declaration fuel) (declaration fuel) := by
  induction fuel with
  | zero => exact (follows_pure _).enter
  | succ fuel ih => exact ((ih.statementLine (fuel + 1)).recovering _).enter

end Statements

/-! ## Texts -/

/-- **The margins survive every error.**  Reading a text with margins that are kept by hand gives the statements and the
reports that reading gives, and comes to the end of the text.  Each call of `declaration` and of `method` notes the
margins and the open parentheses at its start, and nothing that is noted is lost.  What is noted says: there is
a width for every open block and one for the top level, zero; each is wider than the one in front by one, two or four
blanks, and by one if they are tabs; there is an indentation character if and only if a block is open; and no
parenthesis is open.  At the end everything is as it was at the start, however many errors there were, and through
however many blocks and parentheses they led. -/
theorem program_margins (argumentLimit : Nat) (stream : Token.Stream) :
    ∃ statements d,
      program stream.tokens.length (.start argumentLimit stream) = .ok statements d ∧
      Program.read argumentLimit stream = ⟨statements, d.cursor.reports⟩ ∧
      (∀ t ∈ d.cursor.rest, t.isIndentation = true) ∧
      (∀ fuel, Notes (declaration fuel)) ∧ (∀ fuel k, Notes (method fuel (declaration k))) ∧
      (∀ e ∈ d.entries, e.Sound) ∧
      d.margins = .start ∧ d.cursor.parens = 0 := by
  obtain ⟨statements, s, hread, hprogram, -, hend⟩ := Reading.program_ends argumentLimit stream
  have hstart : Mirrors .top (.start argumentLimit stream) (.start argumentLimit stream) :=
    ⟨rfl, rfl, rfl, nofun⟩
  have hfollows : Follows (Reading.program stream.tokens.length) (program stream.tokens.length) :=
    ((follows_declaration _).map some).items _
  have hends := hfollows .top hstart rfl
  rw [hread] at hends
  cases hd : program stream.tokens.length (.start argumentLimit stream) with
  | error e d =>
    rw [hd] at hends
    exact hends.elim
  | ok statements' d =>
    rw [hd] at hends
    obtain ⟨rfl, h, hparens⟩ := hends
    refine ⟨statements, d, rfl, ?_, ?_, notes_declaration, ?_, h.entries, h.margins, ?_⟩
    · rw [hprogram, h.cursor]
    · rw [h.rest]
      exact hend
    · exact fun fuel k => (notes_declaration k).grows.notes_method fuel
    · rw [h.cursor]
      exact hparens

/-- An error between parentheses in a method, which leads out of two blocks. -/
example :
    (match program 17 (.start 255 (Token.scan "class C:\n function f():\n  print (1 2\nprint 3").stream) with
      | .ok _ d => d.entries
      | .error _ _ => []) =
    [⟨.start, 0⟩, ⟨⟨1, [0, 1], some " "⟩, 0⟩, ⟨⟨2, [0, 1, 2], some " "⟩, 0⟩, ⟨.start, 0⟩] := by
  decide +kernel

end ByHand
end Offside
