import Offside.Binding

/-!
# What the walk visits

Binding a program visits its expressions and statements one after the other, each with some scopes open.
This file writes the visits down: every node with its distances, as it is handed to the machine, the way to
it from its program, and the number of scopes that were open when the walk came to it.  The states in which
nodes are visited are those of the walk itself.

* `Binding.Visit` — a node, the way to it, and the number of open scopes;
* `Binding.programVisits` — the visits of a whole program;
* `Binding.programVisits_lie` — no two of them are visits of one node.
-/

set_option autoImplicit false

namespace Offside.Binding

/-- A node of a program whose names are bound. -/
inductive Node where
  | expression (e : Expr Distance)
  | statement (s : Stmt Distance)

/-- The way from a program to one of its nodes.  Each step is the number of the part that is taken; the last step
comes first, and behind them all stands the number of the program. -/
abbrev Path := List Nat

/-- A node that was visited, and how many scopes were open at that moment. -/
structure Visit where
  path : Path
  node : Node
  depth : Nat

/-- What follows a step of the walk, nothing if the step is given up. -/
def after {α β : Type} (step : Binder α) (w : Walk) (next : α → Walk → List β) : List β :=
  match step w with
  | .ok a w' => next a w'
  | .error _ _ => []

theorem after_of_ok {α β : Type} {step : Binder α} {w w' : Walk} {a : α} {next : α → Walk → List β}
    (h : step w = .ok a w') : after step w next = next a w' := by
  rw [after, h]

/-- The state inside one more scope. -/
def Walk.within (scope : Scope) (w : Walk) : Walk :=
  { w with scopes := scope :: w.scopes }

/-- The state with a name entered into the innermost scope. -/
def Walk.entering (name : String) (ready : Bool) (w : Walk) : Walk :=
  { w with scopes := enter name ready w.scopes }

/-- The state around the methods of a class. -/
def Walk.withinClass (derived : Bool) (w : Walk) : Walk :=
  (if derived then w.within [("super", true)] else w).within [("this", true)]

/-! ## Expressions -/

mutual

/-- The visits of an expression, itself first. -/
def exprVisits (ctx : Context) (path : Path) (e : Expr Unit) (w : Walk) : List Visit :=
  (after (expr ctx e) w fun bound _ => [⟨path, .expression bound, w.scopes.length⟩]) ++
    match e with
    | .group inner => exprVisits ctx (0 :: path) inner w
    | .unary _ operand => exprVisits ctx (0 :: path) operand w
    | .binary left _ right =>
      exprVisits ctx (0 :: path) left w ++
        after (expr ctx left) w fun _ w' => exprVisits ctx (1 :: path) right w'
    | .logical left _ right =>
      exprVisits ctx (0 :: path) left w ++
        after (expr ctx left) w fun _ w' => exprVisits ctx (1 :: path) right w'
    | .setField object _ value =>
      exprVisits ctx (1 :: path) value w ++
        after (expr ctx value) w fun _ w' => exprVisits ctx (0 :: path) object w'
    | .getField object _ => exprVisits ctx (0 :: path) object w
    | .call callee _ arguments =>
      exprVisits ctx (0 :: path) callee w ++
        after (expr ctx callee) w fun _ w' => exprsVisits ctx path 1 arguments w'
    | .literal _ | .name _ _ | .thisRef _ _ | .superRef _ _ _ | .unknown => []

/-- The visits of several expressions, which are parts from number `i` on. -/
def exprsVisits (ctx : Context) (path : Path) (i : Nat) (es : List (Expr Unit)) (w : Walk) : List Visit :=
  match es with
  | [] => []
  | e :: es =>
    exprVisits ctx (i :: path) e w ++ after (expr ctx e) w fun _ w' => exprsVisits ctx path (i + 1) es w'

end

/-- The visits of an expression that may be absent. -/
def exprVisits? (ctx : Context) (path : Path) (e : Option (Expr Unit)) (w : Walk) : List Visit :=
  match e with
  | none => []
  | some e => exprVisits ctx path e w

/-! ## Statements -/

/-- The visit of the name of a superclass. -/
def superclassVisits (path : Path) (name : Token) (parent : Option (Token × Unit)) (w : Walk) : List Visit :=
  after (superclass name parent) w fun bound _ =>
    bound.toList.map fun p => ⟨path, .expression (.name p.1 p.2), w.scopes.length⟩

/-- The visits of the value of `set`; a name that is declared is pending meanwhile. -/
def valueVisits (ctx : Context) (path : Path) (name : Token) (value : Option (Expr Unit)) (w : Walk) :
    List Visit :=
  match target? ctx.globals w.scopes name.lexeme with
  | some _ => exprVisits? ctx path value w
  | none => exprVisits? ctx path value (w.entering name.lexeme false)

mutual

/-- The visits of a statement, itself first. -/
def stmtVisits (ctx : Context) (path : Path) (s : Stmt Unit) (w : Walk) : List Visit :=
  (after (stmt ctx s) w fun bound _ => [⟨path, .statement bound, w.scopes.length⟩]) ++
    match s with
    | .block body => stmtsVisits ctx path 0 body (w.within [])
    | .define r => routineVisits { ctx with body := .function } path r (w.entering r.name.lexeme true)
    | .classDef name parent methods =>
      let declared := w.entering name.lexeme true
      let owner := if parent.isSome then Owner.subclass else .baseClass
      superclassVisits (0 :: path) name parent declared ++
        after (superclass name parent) declared fun _ w' =>
          routinesVisits { ctx with owner := owner } path 1 methods (w'.withinClass parent.isSome)
    | .evaluate e => exprVisits ctx (0 :: path) e w
    | .branch condition whenTrue none =>
      exprVisits ctx (0 :: path) condition w ++
        after (expr ctx condition) w fun _ w' => stmtVisits ctx (1 :: path) whenTrue w'
    | .branch condition whenTrue (some whenFalse) =>
      exprVisits ctx (0 :: path) condition w ++ after (expr ctx condition) w fun _ w' =>
        stmtVisits ctx (1 :: path) whenTrue w' ++ after (stmt ctx whenTrue) w' fun _ w'' =>
          stmtVisits ctx (2 :: path) whenFalse w''
    | .print e => exprVisits ctx (0 :: path) e w
    | .giveBack keyword value =>
      after (checkReturn ctx keyword value.isSome) w fun _ w' => exprVisits? ctx (0 :: path) value w'
    | .assign name value _ => valueVisits ctx (0 :: path) name value w
    | .loop condition body =>
      exprVisits ctx (0 :: path) condition w ++
        after (expr ctx condition) w fun _ w' => stmtVisits ctx (1 :: path) body w'
    | .unknown => []

/-- The visits of several statements, which are parts from number `i` on. -/
def stmtsVisits (ctx : Context) (path : Path) (i : Nat) (ss : List (Stmt Unit)) (w : Walk) : List Visit :=
  match ss with
  | [] => []
  | s :: ss =>
    stmtVisits ctx (i :: path) s w ++ after (stmt ctx s) w fun _ w' => stmtsVisits ctx path (i + 1) ss w'

/-- The visits of the body of a routine. -/
def routineVisits (ctx : Context) (path : Path) (r : Routine Unit) (w : Walk) : List Visit :=
  match r with
  | .mk _ params body _ => stmtsVisits ctx path 0 body (w.within (paramScope params))

/-- The visits of the bodies of several methods, which are parts from number `i` on. -/
def routinesVisits (ctx : Context) (path : Path) (i : Nat) (rs : List (Routine Unit)) (w : Walk) : List Visit :=
  match rs with
  | [] => []
  | r :: rs =>
    routineVisits { ctx with body := methodBody r } (i :: path) r w ++
      after (routine { ctx with body := methodBody r } r) w fun _ w' => routinesVisits ctx path (i + 1) rs w'

end

/-- The visits of a program with the given number, given the names already bound in the global frame. -/
def programVisits (number : Nat) (known : List String) (statements : List (Stmt Unit)) : List Visit :=
  stmtsVisits (.top (globalNames known statements)) [number] 0 statements ⟨[], []⟩

/-! ## No node is visited twice -/

/-- The visits are of different nodes, all of them in the parts from number `lo` on and before number `hi`. -/
structure LieIn (path : Path) (lo hi : Nat) (visits : List Visit) : Prop where
  distinct : (visits.map Visit.path).Nodup
  parts : ∀ v ∈ visits, ∃ i, lo ≤ i ∧ i < hi ∧ (i :: path) <:+ v.path

section LieIn

variable {path : Path} {lo mid hi : Nat} {visits more : List Visit}

theorem LieIn.nil : LieIn path lo hi [] :=
  ⟨.nil, nofun⟩

/-- A path leads into one part only. -/
theorem eq_of_cons_suffix {i j : Nat} {other : Path} (hi : (i :: path) <:+ other) (hj : (j :: path) <:+ other) :
    i = j := by
  have hsuffix : (i :: path) <:+ (j :: path) := List.suffix_of_suffix_length_le hi hj (Nat.le_refl _)
  exact (List.cons.inj (hsuffix.eq_of_length rfl)).1

theorem LieIn.append (h : LieIn path lo mid visits) (h' : LieIn path mid hi more) (hlo : lo ≤ mid)
    (hhi : mid ≤ hi) : LieIn path lo hi (visits ++ more) := by
  constructor
  · rw [List.map_append, List.nodup_append]
    refine ⟨h.distinct, h'.distinct, ?_⟩
    intro p hp q hq heq
    obtain ⟨v, hv, rfl⟩ := List.mem_map.1 hp
    obtain ⟨v', hv', rfl⟩ := List.mem_map.1 hq
    obtain ⟨i, -, hi, hsuffix⟩ := h.parts v hv
    obtain ⟨j, hj, -, hsuffix'⟩ := h'.parts v' hv'
    have hij := eq_of_cons_suffix (heq ▸ hsuffix) hsuffix'
    omega
  · intro v hv
    rcases List.mem_append.1 hv with hv | hv
    · obtain ⟨i, hlo', hi, hsuffix⟩ := h.parts v hv
      exact ⟨i, hlo', by omega, hsuffix⟩
    · obtain ⟨i, hlo', hi, hsuffix⟩ := h'.parts v hv
      exact ⟨i, by omega, hi, hsuffix⟩

/-- The order in which parts are visited does not matter. -/
theorem LieIn.comm (h : LieIn path lo hi (visits ++ more)) : LieIn path lo hi (more ++ visits) :=
  ⟨(List.perm_append_comm.map Visit.path).nodup_iff.1 h.distinct,
    fun v hv => h.parts v (List.perm_append_comm.mem_iff.1 hv)⟩

/-- What lies in the parts of a part lies in the part. -/
theorem LieIn.inPart {i : Nat} (h : LieIn (i :: path) lo hi visits) : LieIn path i (i + 1) visits := by
  refine ⟨h.distinct, fun x hx => ?_⟩
  obtain ⟨j, -, -, hsuffix⟩ := h.parts x hx
  exact ⟨i, Nat.le_refl i, Nat.lt_succ_self i, (List.suffix_cons j _).trans hsuffix⟩

/-- With all its parts, a node is itself one part of the node around it. -/
theorem LieIn.node {α : Type} {step : Binder α} {w : Walk} {node : α → Node} {i depth : Nat}
    (h : LieIn (i :: path) lo hi visits) :
    LieIn path i (i + 1) ((Binding.after step w fun a _ => [⟨i :: path, node a, depth⟩]) ++ visits) := by
  unfold Binding.after
  split
  · refine ⟨List.nodup_cons.2 ⟨fun hmem => ?_, h.distinct⟩, List.forall_mem_cons.2 ⟨?_, h.inPart.parts⟩⟩
    · -- the way to a part is longer
      obtain ⟨x, hx, heq⟩ := List.mem_map.1 hmem
      obtain ⟨j, -, -, hsuffix⟩ := h.parts x hx
      have hlength := hsuffix.length_le
      rw [heq, List.length_cons] at hlength
      exact Nat.not_succ_le_self _ hlength
    · exact ⟨i, Nat.le_refl i, Nat.lt_succ_self i, List.suffix_refl _⟩
  · exact h.inPart

theorem LieIn.after {α : Type} {step : Binder α} {w : Walk} {next : α → Walk → List Visit}
    (h : ∀ a w', LieIn path lo hi (next a w')) : LieIn path lo hi (after step w next) := by
  unfold Binding.after
  split
  · exact h _ _
  · exact .nil

end LieIn

mutual

/-- An expression is one part of the node around it, and no node of it is visited twice. -/
theorem exprVisits_lie (ctx : Context) : (e : Expr Unit) → ∀ (path : Path) (i : Nat) (w : Walk),
    LieIn path i (i + 1) (exprVisits ctx (i :: path) e w)
  | .literal _, path, i, w | .name _ _, path, i, w | .thisRef _ _, path, i, w
  | .superRef _ _ _, path, i, w | .unknown, path, i, w => by
    rw [exprVisits]
    exact .node (LieIn.nil : LieIn (i :: path) 0 0 [])
  | .group inner, path, i, w => by
    rw [exprVisits]
    exact .node (exprVisits_lie ctx inner (i :: path) 0 w)
  | .unary _ operand, path, i, w => by
    rw [exprVisits]
    exact .node (exprVisits_lie ctx operand (i :: path) 0 w)
  | .binary left _ right, path, i, w => by
    rw [exprVisits]
    exact .node ((exprVisits_lie ctx left (i :: path) 0 w).append
      (.after fun _ w' => exprVisits_lie ctx right (i :: path) 1 w') (by decide) (by decide))
  | .logical left _ right, path, i, w => by
    rw [exprVisits]
    exact .node ((exprVisits_lie ctx left (i :: path) 0 w).append
      (.after fun _ w' => exprVisits_lie ctx right (i :: path) 1 w') (by decide) (by decide))
  | .setField object _ value, path, i, w => by
    rw [exprVisits]
    have hobject : LieIn (i :: path) 0 1
        (after (expr ctx value) w fun _ w' => exprVisits ctx (0 :: i :: path) object w') :=
      .after fun _ w' => exprVisits_lie ctx object (i :: path) 0 w'
    exact .node (.comm (hobject.append (exprVisits_lie ctx value (i :: path) 1 w) (by decide) (by decide)))
  | .getField object _, path, i, w => by
    rw [exprVisits]
    exact .node (exprVisits_lie ctx object (i :: path) 0 w)
  | .call callee _ arguments, path, i, w => by
    rw [exprVisits]
    exact .node ((exprVisits_lie ctx callee (i :: path) 0 w).append
      (.after fun _ w' => exprsVisits_lie ctx arguments (i :: path) 1 w') (by decide) (Nat.le_add_right 1 _))

theorem exprsVisits_lie (ctx : Context) : (es : List (Expr Unit)) → ∀ (path : Path) (i : Nat) (w : Walk),
    LieIn path i (i + es.length) (exprsVisits ctx path i es w)
  | [], path, i, w => .nil
  | e :: es, path, i, w => by
    rw [exprsVisits, List.length_cons, ← Nat.add_assoc, Nat.add_right_comm]
    exact (exprVisits_lie ctx e path i w).append
      (.after fun _ w' => exprsVisits_lie ctx es path (i + 1) w') (Nat.le_succ i) (Nat.le_add_right _ _)

end

theorem exprVisits?_lie (ctx : Context) (path : Path) (i : Nat) (e : Option (Expr Unit)) (w : Walk) :
    LieIn path i (i + 1) (exprVisits? ctx (i :: path) e w) := by
  cases e with
  | none => exact .nil
  | some e => exact exprVisits_lie ctx e path i w

theorem valueVisits_lie (ctx : Context) (path : Path) (i : Nat) (name : Token) (value : Option (Expr Unit))
    (w : Walk) : LieIn path i (i + 1) (valueVisits ctx (i :: path) name value w) := by
  unfold valueVisits
  split <;> exact exprVisits?_lie ctx path i value _

theorem superclassVisits_lie (path : Path) (i : Nat) (name : Token) (parent : Option (Token × Unit)) (w : Walk) :
    LieIn path i (i + 1) (superclassVisits (i :: path) name parent w) := by
  refine .after fun bound _ => ?_
  cases bound with
  | none => exact .nil
  | some p =>
    refine ⟨List.pairwise_singleton _ _, List.forall_mem_singleton.2 ?_⟩
    exact ⟨i, Nat.le_refl i, Nat.lt_succ_self i, List.suffix_refl _⟩

mutual

/-- A statement is one part of the node around it, and no node of it is visited twice. -/
theorem stmtVisits_lie (ctx : Context) : (s : Stmt Unit) → ∀ (path : Path) (i : Nat) (w : Walk),
    LieIn path i (i + 1) (stmtVisits ctx (i :: path) s w)
  | .block body, path, i, w => by
    rw [stmtVisits]
    exact .node (stmtsVisits_lie ctx body (i :: path) 0 _)
  | .define r, path, i, w => by
    rw [stmtVisits]
    exact .node (routineVisits_lie _ r (i :: path) _)
  | .classDef name parent methods, path, i, w => by
    rw [stmtVisits]
    exact .node ((superclassVisits_lie (i :: path) 0 name parent _).append
      (.after fun _ w' => routinesVisits_lie _ methods (i :: path) 1 _) (by decide) (Nat.le_add_right 1 _))
  | .evaluate e, path, i, w => by
    rw [stmtVisits]
    exact .node (exprVisits_lie ctx e (i :: path) 0 w)
  | .branch condition whenTrue none, path, i, w => by
    rw [stmtVisits]
    exact .node ((exprVisits_lie ctx condition (i :: path) 0 w).append
      (.after fun _ w' => stmtVisits_lie ctx whenTrue (i :: path) 1 w') (by decide) (by decide))
  | .branch condition whenTrue (some whenFalse), path, i, w => by
    rw [stmtVisits]
    have hbranches : LieIn (i :: path) 1 3 (after (expr ctx condition) w fun _ w' =>
        stmtVisits ctx (1 :: i :: path) whenTrue w' ++ after (stmt ctx whenTrue) w' fun _ w'' =>
          stmtVisits ctx (2 :: i :: path) whenFalse w'') :=
      .after fun _ w' => (stmtVisits_lie ctx whenTrue (i :: path) 1 w').append
        (.after fun _ w'' => stmtVisits_lie ctx whenFalse (i :: path) 2 w'') (by decide) (by decide)
    exact .node ((exprVisits_lie ctx condition (i :: path) 0 w).append hbranches (by decide) (by decide))
  | .print e, path, i, w => by
    rw [stmtVisits]
    exact .node (exprVisits_lie ctx e (i :: path) 0 w)
  | .giveBack _ value, path, i, w => by
    rw [stmtVisits]
    exact .node (.after fun _ w' => exprVisits?_lie ctx (i :: path) 0 value w')
  | .assign name value _, path, i, w => by
    rw [stmtVisits]
    exact .node (valueVisits_lie ctx (i :: path) 0 name value w)
  | .loop condition body, path, i, w => by
    rw [stmtVisits]
    exact .node ((exprVisits_lie ctx condition (i :: path) 0 w).append
      (.after fun _ w' => stmtVisits_lie ctx body (i :: path) 1 w') (by decide) (by decide))
  | .unknown, path, i, w => by
    rw [stmtVisits]
    exact .node (LieIn.nil : LieIn (i :: path) 0 0 [])

theorem stmtsVisits_lie (ctx : Context) : (ss : List (Stmt Unit)) → ∀ (path : Path) (i : Nat) (w : Walk),
    LieIn path i (i + ss.length) (stmtsVisits ctx path i ss w)
  | [], path, i, w => .nil
  | s :: ss, path, i, w => by
    rw [stmtsVisits, List.length_cons, ← Nat.add_assoc, Nat.add_right_comm]
    exact (stmtVisits_lie ctx s path i w).append
      (.after fun _ w' => stmtsVisits_lie ctx ss path (i + 1) w') (Nat.le_succ i) (Nat.le_add_right _ _)

theorem routineVisits_lie (ctx : Context) : (r : Routine Unit) → ∀ (path : Path) (w : Walk),
    LieIn path 0 r.body.length (routineVisits ctx path r w)
  | .mk _ params body _, path, w => by
    rw [routineVisits, ← Nat.zero_add (List.length _)]
    exact stmtsVisits_lie ctx body path 0 _

theorem routinesVisits_lie (ctx : Context) : (rs : List (Routine Unit)) → ∀ (path : Path) (i : Nat) (w : Walk),
    LieIn path i (i + rs.length) (routinesVisits ctx path i rs w)
  | [], path, i, w => .nil
  | r :: rs, path, i, w => by
    rw [routinesVisits, List.length_cons, ← Nat.add_assoc, Nat.add_right_comm]
    exact (LieIn.inPart (routineVisits_lie _ r (i :: path) w)).append
      (.after fun _ w' => routinesVisits_lie ctx rs path (i + 1) w') (Nat.le_succ i) (Nat.le_add_right _ _)

end

/-- **No node is visited twice.**  The visits of a program are of different nodes of this program. -/
theorem programVisits_lie (number : Nat) (known : List String) (statements : List (Stmt Unit)) :
    LieIn [] number (number + 1) (programVisits number known statements) :=
  (stmtsVisits_lie _ statements [number] 0 _).inPart

end Offside.Binding
