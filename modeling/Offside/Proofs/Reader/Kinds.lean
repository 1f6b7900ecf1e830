import Offside.Proofs.Reader.Plain

/-!
# Programs of known kinds

Every node of a program that is read is of a known kind; only trees that are built by hand hold others.  Together
with its plain names this is the shape of a program: what binding and running may take for granted of a tree,
whatever it says.

* `Expr.Understood`, `Stmt.Understood` — trees without nodes of unknown kind;
* `Program.Shaped` — the shape of a program;
* `Program.shaped_of_read` — what is read from a text without a report is of that shape.
-/

set_option autoImplicit false

namespace Offside

/-! ## Trees without nodes of unknown kind -/

mutual

/-- Every node of the expression is of a known kind. -/
def Expr.Understood : Expr Unit → Prop
  | .group inner => inner.Understood
  | .unary _ operand => operand.Understood
  | .binary left _ right => left.Understood ∧ right.Understood
  | .logical left _ right => left.Understood ∧ right.Understood
  | .setField object _ value => object.Understood ∧ value.Understood
  | .getField object _ => object.Understood
  | .call callee _ arguments => callee.Understood ∧ Expr.UnderstoodAll arguments
  | .literal _ | .name _ _ | .thisRef _ _ | .superRef _ _ _ => True
  | .unknown => False

/-- The same of several expressions. -/
def Expr.UnderstoodAll : List (Expr Unit) → Prop
  | [] => True
  | e :: es => e.Understood ∧ Expr.UnderstoodAll es

end

mutual

/-- Every node of the statement is of a known kind. -/
def Stmt.Understood : Stmt Unit → Prop
  | .block body => Stmt.UnderstoodAll body
  | .define r => r.Understood
  | .classDef _ _ methods => Routine.UnderstoodAll methods
  | .evaluate e => e.Understood
  | .branch condition whenTrue none => condition.Understood ∧ whenTrue.Understood
  | .branch condition whenTrue (some whenFalse) =>
    condition.Understood ∧ whenTrue.Understood ∧ whenFalse.Understood
  | .print e => e.Understood
  | .giveBack _ value => ∀ e ∈ value, e.Understood
  | .assign _ value _ => ∀ e ∈ value, e.Understood
  | .loop condition body => condition.Understood ∧ body.Understood
  | .unknown => False

/-- The same of several statements. -/
def Stmt.UnderstoodAll : List (Stmt Unit) → Prop
  | [] => True
  | s :: ss => s.Understood ∧ Stmt.UnderstoodAll ss

/-- The same of the body of a routine. -/
def Routine.Understood : Routine Unit → Prop
  | .mk _ _ body _ => Stmt.UnderstoodAll body

/-- The same of several routines. -/
def Routine.UnderstoodAll : List (Routine Unit) → Prop
  | [] => True
  | r :: rs => r.Understood ∧ Routine.UnderstoodAll rs

end

/-- The shape of a program that is read: its names are plain, and its nodes are of known kinds. -/
structure Program.Shaped (statements : List (Stmt Unit)) : Prop where
  plain : Stmt.PlainAll statements
  understood : Stmt.UnderstoodAll statements

/-! ## What is spelled is understood -/

namespace Grammar

variable {limit : Nat}

theorem understood_join (tier : Reading.Tier) {left right : Expr Unit} (operator : Token)
    (hl : left.Understood) (hr : right.Understood) : (tier.join left operator right).Understood := by
  cases tier <;> exact ⟨hl, hr⟩

mutual

theorem Spells.understood {T : List Reading.Tier} {e : Expr Unit} {ts : List Token}
    (h : Spells limit T e ts) : e.Understood :=
  match h with
  | .tighter h => Spells.understood h
  | @Spells.join _ tier _ _ _ operator _ _ hl _ hr =>
    understood_join tier operator (Spells.understood hl) (Spells.understood hr)
  | .sign _ h => by
    have hoperand := Spells.understood h
    exact hoperand
  | .operand h => Operand.understood h

theorem Operand.understood {e : Expr Unit} {ts : List Token} (h : Operand limit e ts) : e.Understood :=
  match h with
  | .literal _ => trivial
  | .name _ => trivial
  | .thisRef _ => trivial
  | .superRef _ _ _ => trivial
  | .group _ h _ => by
    have hinner := Spells.understood h
    exact hinner
  | .getField h _ _ => by
    have hobject := Operand.understood h
    exact hobject
  | .call h _ hargs _ _ => ⟨Operand.understood h, Listed.understood hargs⟩

theorem Listed.understood {es : List (Expr Unit)} {ts : List Token} (h : Listed limit es ts) :
    Expr.UnderstoodAll es :=
  match h with
  | .none => trivial
  | .one h => ⟨Spells.understood h, trivial⟩
  | .more h _ hs _ => ⟨Spells.understood h, Listed.understood hs⟩

end

theorem Simple.understood {s : Stmt Unit} {ts : List Token} (h : Simple limit s ts) : s.Understood := by
  cases h with
  | evaluate h => exact h.understood
  | assign _ _ h =>
    have hvalue := h.understood
    exact fun e he => Option.some.inj he ▸ hvalue
  | setField hobject _ _ _ hvalue => exact ⟨hobject.understood, hvalue.understood⟩

theorem GivenBack.understood {word : Token} {s : Stmt Unit} {ts : List Token}
    (h : GivenBack limit word s ts) : s.Understood := by
  cases h with
  | nothing => intro e he; cases he
  | value h _ =>
    have hvalue := h.understood
    exact fun e he => Option.some.inj he ▸ hvalue

mutual

theorem Statement.understood {l : Layout} {s : Stmt Unit} {lines : List Line}
    (h : Statement limit l s lines) : s.Understood :=
  match h with
  | .simple _ h => h.understood
  | .print _ h => h.understood
  | .giveBack _ h => h.understood
  | .block _ h => Block.understood h
  | .loop _ hc _ hb => ⟨hc.understood, Block.understood hb⟩
  | .branch _ h => Branch.understood h
  | .define _ h => Function.understood h
  | .classDef _ _ _ _ _ h _ => Methods.understood h

theorem Branch.understood {l : Layout} {s : Stmt Unit} {ts : List Token} {inner : List Line}
    (h : Branch limit l s ts inner) : s.Understood :=
  match h with
  | @Branch.intro _ _ _ _ other _ _ _ _ hc _ hb ho => by
    have hcondition := hc.understood
    have hbody := Block.understood hb
    have hother := Otherwise.understood ho
    cases other with
    | none => exact ⟨hcondition, hbody⟩
    | some other => exact ⟨hcondition, hbody, hother other rfl⟩

theorem Otherwise.understood {l : Layout} {other : Option (Stmt Unit)} {lines : List Line}
    (h : Otherwise limit l other lines) : ∀ s ∈ other, s.Understood :=
  match h with
  | .nothing => fun _ hs => nomatch hs
  | .block _ _ h => by
    have hbody := Block.understood h
    intro s hs
    exact Option.some.inj hs ▸ hbody
  | .branch _ _ h => by
    have hbranch := Branch.understood h
    intro s hs
    exact Option.some.inj hs ▸ hbranch

theorem Function.understood {l : Layout} {r : Routine Unit} {ts : List Token} {inner : List Line}
    (h : Function limit l r ts inner) : r.Understood :=
  match h with
  | .intro _ _ _ _ _ _ _ hb => Block.understood hb

theorem Block.understood {l : Layout} {body : List (Stmt Unit)} {lines : List Line}
    (h : Block limit l body lines) : Stmt.UnderstoodAll body :=
  match h with
  | .intro _ h _ => Statements.understood h

theorem Statements.understood {l : Layout} {ss : List (Stmt Unit)} {lines : List Line}
    (h : Statements limit l ss lines) : Stmt.UnderstoodAll ss :=
  match h with
  | .nil => trivial
  | .cons h hs => ⟨Statement.understood h, Statements.understood hs⟩

theorem Methods.understood {l : Layout} {rs : List (Routine Unit)} {lines : List Line}
    (h : Methods limit l rs lines) : Routine.UnderstoodAll rs :=
  match h with
  | .nil => trivial
  | .cons _ h hs => ⟨Function.understood h, Methods.understood hs⟩

end

end Grammar

/-- **The shape of a text.**  What is read from the tokens of a text without a report has the shape of a
program. -/
theorem Program.shaped_of_read {argumentLimit : Nat} {source : String}
    (h : (Program.read argumentLimit (Token.scan source).stream).reports = []) :
    Program.Shaped (Program.read argumentLimit (Token.scan source).stream).statements := by
  obtain ⟨lines, hstatements, -⟩ := Reading.laid_of_read h
  exact ⟨Program.plain_of_read h, hstatements.understood⟩

end Offside
