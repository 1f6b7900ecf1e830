import Offside.Reader.Cursor

/-!
# Reading lines and blocks

A block is opened by a colon; its lines are read one after the other until a line belongs to a block
further out or the text ends.  That line is left to the enclosing block.
-/

set_option autoImplicit false

namespace Offside.Reading

/-- Steps over the indentation of a line of the innermost block. -/
def beginLine : Reading Unit :=
  fun s =>
    let r := lineRun s.rest
    let moved := { s with rest := r.2 }
    if s.layout.continues r.1 then .ok () moved
    else .error ⟨⟩ (moved.complain moved.current (s.layout.misfit r.1))

/-- Requires a line break behind a statement. -/
def endStatement : Reading Unit :=
  fun s =>
    match s.rest with
    | [] => .ok () s
    | t :: _ =>
      if !t.isIndentation && t.line == s.lastLine then
        .error ⟨⟩ (s.complain t (.expected "line break after statement"))
      else .ok () s

/-- The items on the lines of the innermost block; an item that could not be read is left out. -/
def items {α : Type} (item : Reading (Option α)) : Nat → Reading (List α)
  | 0 => pure []
  | fuel + 1 => fun s =>
    let r := lineRun s.rest
    if r.2.isEmpty || s.layout.closes r.1 then .ok [] s
    else
      (do
        let first ← item
        let more ← items item fuel
        return first.toList ++ more : Reading (List α)) s

/-- Leaves the blocks that are open inside `layout`, however the step ends. -/
def within {α : Type} (inner : Layout) (body : Reading α) : Reading α :=
  fun s =>
    match body { s with layout := inner } with
    | .ok a t => .ok a { t with layout := s.layout }
    | .error e t => .error e { t with layout := s.layout }

/-- The items of the block behind a colon. -/
def indented {α : Type} (fuel : Nat) (item : Reading (Option α)) : Reading (List α) :=
  fun s =>
    let r := lineRun s.rest
    match s.layout.enter? r.1 with
    | .error problem => abandonAt (s.firstOf r.2) problem s
    | .ok inner => within inner (items item fuel) s

/-- Consumes an `else` on the next line if that line is a line of the innermost block. -/
def acceptElse : Reading Bool :=
  fun s =>
    let r := lineRun s.rest
    match r.2 with
    | [] => .ok false s
    | t :: ts =>
      if t.kind == .elseWord && s.layout.continues r.1 then
        .ok true { s with rest := ts, lastLine := t.line }
      else .ok false s

end Offside.Reading
