import Offside.Proofs.Binding.Known

/-!
# `else if` as a nested block

An `else if` is a branch that stands where an `else` block could stand.  Put into a block of its own it is bound
inside one more scope, which declares nothing: every name outside that scope is found one scope further
outward, and the tree differs in its distances alone.

* `Stmt.nested` — every `else if` put into a block of its own;
* `Binding.shift` — distances past inserted scopes;
* `Expr.Spread`, `Stmt.Spread` — bound trees that differ in inserted blocks and in the distances past them;
* `Binding.Padded` — scopes with and without the inserted ones;
* `Binding.stmt_spreads` and its companions — the walks over a tree and over the nested one go alike;
* `Binding.program_nested` — whole programs.
-/

set_option autoImplicit false

namespace Offside

open Binding (Distance)

/-! ## Nesting -/

/-- A branch is put into a block of its own. -/
def Stmt.boxed {β : Type} : Stmt β → Stmt β
  | .branch condition whenTrue whenFalse => .block [.branch condition whenTrue whenFalse]
  | s => s

mutual

/-- The statement with a block around every branch that stands behind an `else`. -/
def Stmt.nested {β : Type} : Stmt β → Stmt β
  | .block body => .block (Stmt.nestedAll body)
  | .define r => .define r.nested
  | .classDef name parent methods => .classDef name parent (Routine.nestedAll methods)
  | .evaluate e => .evaluate e
  | .branch condition whenTrue none => .branch condition whenTrue.nested none
  | .branch condition whenTrue (some whenFalse) =>
    .branch condition whenTrue.nested (some whenFalse.nested.boxed)
  | .print e => .print e
  | .giveBack keyword value => .giveBack keyword value
  | .assign name value site => .assign name value site
  | .loop condition body => .loop condition body.nested
  | .unknown => .unknown

/-- The same of several statements. -/
def Stmt.nestedAll {β : Type} : List (Stmt β) → List (Stmt β)
  | [] => []
  | s :: ss => s.nested :: Stmt.nestedAll ss

/-- The same of the body of a routine. -/
def Routine.nested {β : Type} : Routine β → Routine β
  | .mk name params body returnType => .mk name params (Stmt.nestedAll body) returnType

/-- The same of several routines. -/
def Routine.nestedAll {β : Type} : List (Routine β) → List (Routine β)
  | [] => []
  | r :: rs => r.nested :: Routine.nestedAll rs

end

theorem Routine.name_nested {β : Type} (r : Routine β) : r.nested.name = r.name := by
  cases r
  rfl

/-! ## Patterns -/

namespace Binding

/-- A pattern says of each open scope, innermost first, whether it is shared; the others are inserted.  The
distance `d` among the shared scopes is this distance among all. -/
def shift : List Bool → Nat → Nat
  | [], d => d
  | false :: p, d => shift p d + 1
  | true :: _, 0 => 0
  | true :: p, d + 1 => shift p d + 1

/-- The innermost scope is not an inserted one. -/
def Shared (p : List Bool) : Prop :=
  p.head? ≠ some false

/-- The pattern inside a class. -/
def classPattern (derived : Bool) (p : List Bool) : List Bool :=
  true :: if derived then true :: p else p

theorem shared_nil : Shared [] :=
  nofun

theorem shared_cons (p : List Bool) : Shared (true :: p) :=
  nofun

end Binding

open Binding (shift Shared classPattern)

/-! ## Trees that are spread -/

mutual

/-- The second expression is the first one, with distances past the inserted scopes of a pattern.  None of these
is between the scope of `super` and the one inside it. -/
inductive Expr.Spread (p : List Bool) : Expr Distance → Expr Distance → Prop
  | literal (value : Literal) : Expr.Spread p (.literal value) (.literal value)
  | group {e e' : Expr Distance} (h : Expr.Spread p e e') : Expr.Spread p (.group e) (.group e')
  | unary (operator : Token) {e e' : Expr Distance} (h : Expr.Spread p e e') :
      Expr.Spread p (.unary operator e) (.unary operator e')
  | binary (operator : Token) {l l' r r' : Expr Distance} (hl : Expr.Spread p l l') (hr : Expr.Spread p r r') :
      Expr.Spread p (.binary l operator r) (.binary l' operator r')
  | logical (operator : Token) {l l' r r' : Expr Distance} (hl : Expr.Spread p l l') (hr : Expr.Spread p r r') :
      Expr.Spread p (.logical l operator r) (.logical l' operator r')
  | name (token : Token) (site : Distance) :
      Expr.Spread p (.name token site) (.name token (site.map (shift p)))
  | setField (field : Token) {o o' v v' : Expr Distance} (ho : Expr.Spread p o o') (hv : Expr.Spread p v v') :
      Expr.Spread p (.setField o field v) (.setField o' field v')
  | getField (field : Token) {o o' : Expr Distance} (ho : Expr.Spread p o o') :
      Expr.Spread p (.getField o field) (.getField o' field)
  | call (paren : Token) {c c' : Expr Distance} {args args' : List (Expr Distance)} (hc : Expr.Spread p c c')
      (hargs : Expr.SpreadAll p args args') : Expr.Spread p (.call c paren args) (.call c' paren args')
  | thisRef (keyword : Token) (site : Distance) :
      Expr.Spread p (.thisRef keyword site) (.thisRef keyword (site.map (shift p)))
  | superRef (keyword method : Token) (site : Distance) (h : ∀ d ∈ site, shift p d - 1 = shift p (d - 1)) :
      Expr.Spread p (.superRef keyword method site) (.superRef keyword method (site.map (shift p)))
  | unknown : Expr.Spread p .unknown .unknown

/-- The same of several expressions. -/
inductive Expr.SpreadAll (p : List Bool) : List (Expr Distance) → List (Expr Distance) → Prop
  | nil : Expr.SpreadAll p [] []
  | cons {e e' : Expr Distance} {es es' : List (Expr Distance)} (h : Expr.Spread p e e')
      (hs : Expr.SpreadAll p es es') : Expr.SpreadAll p (e :: es) (e' :: es')

end

mutual

/-- The second statement is the first one, with blocks inserted around statements that bind no name in the scope
in which they stand, and with distances past the inserted scopes. -/
inductive Stmt.Spread : List Bool → Stmt Distance → Stmt Distance → Prop
  | block {p : List Bool} {body body' : List (Stmt Distance)} (h : Stmt.SpreadAll (true :: p) body body') :
      Stmt.Spread p (.block body) (.block body')
  | define {p : List Bool} {r r' : Routine Distance} (hp : Shared p) (h : Routine.Spread p r r') :
      Stmt.Spread p (.define r) (.define r')
  | classDef {p : List Bool} (name : Token) (parent : Option (Token × Distance))
      {methods methods' : List (Routine Distance)} (hp : Shared p)
      (h : Routine.SpreadAll (classPattern parent.isSome p) methods methods') :
      Stmt.Spread p (.classDef name parent methods)
        (.classDef name (parent.map fun t => (t.1, t.2.map (shift p))) methods')
  | evaluate {p : List Bool} {e e' : Expr Distance} (h : Expr.Spread p e e') :
      Stmt.Spread p (.evaluate e) (.evaluate e')
  | branch {p : List Bool} {c c' : Expr Distance} {t t' : Stmt Distance} {f f' : Option (Stmt Distance)}
      (hc : Expr.Spread p c c') (ht : Stmt.Spread p t t') (hf : Stmt.Spread? p f f') :
      Stmt.Spread p (.branch c t f) (.branch c' t' f')
  | print {p : List Bool} {e e' : Expr Distance} (h : Expr.Spread p e e') : Stmt.Spread p (.print e) (.print e')
  | giveBack {p : List Bool} (keyword : Token) {v v' : Option (Expr Distance)}
      (h : Option.Rel (Expr.Spread p) v v') : Stmt.Spread p (.giveBack keyword v) (.giveBack keyword v')
  | assign {p : List Bool} (name : Token) {v v' : Option (Expr Distance)} (site : Distance) (hp : Shared p)
      (h : Option.Rel (Expr.Spread p) v v') :
      Stmt.Spread p (.assign name v site) (.assign name v' (site.map (shift p)))
  | loop {p : List Bool} {c c' : Expr Distance} {b b' : Stmt Distance} (hc : Expr.Spread p c c')
      (hb : Stmt.Spread p b b') : Stmt.Spread p (.loop c b) (.loop c' b')
  | unknown {p : List Bool} : Stmt.Spread p .unknown .unknown
  | inserted {p : List Bool} {s s' : Stmt Distance} (h : Stmt.Spread (false :: p) s s') :
      Stmt.Spread p s (.block [s'])

/-- The same of a statement that may be absent. -/
inductive Stmt.Spread? : List Bool → Option (Stmt Distance) → Option (Stmt Distance) → Prop
  | none {p : List Bool} : Stmt.Spread? p none none
  | some {p : List Bool} {s s' : Stmt Distance} (h : Stmt.Spread p s s') : Stmt.Spread? p (some s) (some s')

/-- The same of several statements. -/
inductive Stmt.SpreadAll : List Bool → List (Stmt Distance) → List (Stmt Distance) → Prop
  | nil {p : List Bool} : Stmt.SpreadAll p [] []
  | cons {p : List Bool} {s s' : Stmt Distance} {ss ss' : List (Stmt Distance)} (h : Stmt.Spread p s s')
      (hs : Stmt.SpreadAll p ss ss') : Stmt.SpreadAll p (s :: ss) (s' :: ss')

/-- The same of the body of a routine. -/
inductive Routine.Spread : List Bool → Routine Distance → Routine Distance → Prop
  | mk {p : List Bool} (name : Token) (params : List Token) {body body' : List (Stmt Distance)}
      (returnType : Option Token) (h : Stmt.SpreadAll (true :: p) body body') :
      Routine.Spread p (.mk name params body returnType) (.mk name params body' returnType)

/-- The same of several routines. -/
inductive Routine.SpreadAll : List Bool → List (Routine Distance) → List (Routine Distance) → Prop
  | nil {p : List Bool} : Routine.SpreadAll p [] []
  | cons {p : List Bool} {r r' : Routine Distance} {rs rs' : List (Routine Distance)} (h : Routine.Spread p r r')
      (hs : Routine.SpreadAll p rs rs') : Routine.SpreadAll p (r :: rs) (r' :: rs')

end

theorem Binding.shift_zero {p : List Bool} (hp : Shared p) : shift p 0 = 0 := by
  rcases p with _ | ⟨b, p⟩
  · rfl
  · cases b with
    | false => exact absurd rfl hp
    | true => rfl

/-! ### Nothing inserted -/

theorem Binding.shift_of_not_mem {p : List Bool} (hp : false ∉ p) (d : Nat) : shift p d = d := by
  induction p generalizing d with
  | nil => rfl
  | cons b p ih =>
    cases b with
    | false => exact absurd List.mem_cons_self hp
    | true =>
      cases d with
      | zero => rfl
      | succ d => rw [shift, ih (List.not_mem_of_not_mem_cons hp)]

theorem Binding.map_shift_of_not_mem {p : List Bool} (hp : false ∉ p) (site : Distance) :
    site.map (shift p) = site := by
  cases site with
  | none => rfl
  | some d => rw [Option.map_some, Binding.shift_of_not_mem hp]

theorem Binding.shared_of_not_mem {p : List Bool} (hp : false ∉ p) : Shared p :=
  fun h => hp (List.mem_of_mem_head? h)

theorem Binding.not_mem_cons_true {p : List Bool} (hp : false ∉ p) : false ∉ true :: p :=
  List.not_mem_cons_of_ne_of_not_mem Bool.false_ne_true hp

theorem Binding.not_mem_classPattern {p : List Bool} (hp : false ∉ p) (derived : Bool) :
    false ∉ classPattern derived p := by
  cases derived with
  | false => exact Binding.not_mem_cons_true hp
  | true => exact Binding.not_mem_cons_true (Binding.not_mem_cons_true hp)

section Same

variable {p : List Bool}

mutual

/-- Where no scope is inserted, a tree is spread to itself. -/
theorem Expr.spread_self (hp : false ∉ p) : (e : Expr Distance) → Expr.Spread p e e
  | .literal value => .literal value
  | .group inner => .group (Expr.spread_self hp inner)
  | .unary operator operand => .unary operator (Expr.spread_self hp operand)
  | .binary left operator right => .binary operator (Expr.spread_self hp left) (Expr.spread_self hp right)
  | .logical left operator right => .logical operator (Expr.spread_self hp left) (Expr.spread_self hp right)
  | .name token site => by
    have h := Expr.Spread.name (p := p) token site
    rwa [Binding.map_shift_of_not_mem hp] at h
  | .setField object field value => .setField field (Expr.spread_self hp object) (Expr.spread_self hp value)
  | .getField object field => .getField field (Expr.spread_self hp object)
  | .call callee paren arguments => .call paren (Expr.spread_self hp callee) (Expr.spreadAll_self hp arguments)
  | .thisRef keyword site => by
    have h := Expr.Spread.thisRef (p := p) keyword site
    rwa [Binding.map_shift_of_not_mem hp] at h
  | .superRef keyword method site => by
    have h := Expr.Spread.superRef (p := p) keyword method site fun d _ => by
      rw [Binding.shift_of_not_mem hp, Binding.shift_of_not_mem hp]
    rwa [Binding.map_shift_of_not_mem hp] at h
  | .unknown => .unknown

theorem Expr.spreadAll_self (hp : false ∉ p) : (es : List (Expr Distance)) → Expr.SpreadAll p es es
  | [] => .nil
  | e :: es => .cons (Expr.spread_self hp e) (Expr.spreadAll_self hp es)

end

theorem Expr.spread?_self (hp : false ∉ p) (e : Option (Expr Distance)) : Option.Rel (Expr.Spread p) e e := by
  cases e with
  | none => exact .none
  | some e => exact .some (Expr.spread_self hp e)

end Same

mutual

theorem Stmt.spread_self {p : List Bool} (hp : false ∉ p) : (s : Stmt Distance) → Stmt.Spread p s s
  | .block body => .block (Stmt.spreadAll_self (Binding.not_mem_cons_true hp) body)
  | .define r => .define (Binding.shared_of_not_mem hp) (Routine.spread_self hp r)
  | .classDef name parent methods => by
    have hmethods := Routine.spreadAll_self (Binding.not_mem_classPattern hp parent.isSome) methods
    have h := Stmt.Spread.classDef name parent (Binding.shared_of_not_mem hp) hmethods
    have hparent : (parent.map fun t => (t.1, t.2.map (shift p))) = parent := by
      cases parent with
      | none => rfl
      | some t => rw [Option.map_some, Binding.map_shift_of_not_mem hp]
    rwa [hparent] at h
  | .evaluate e => .evaluate (Expr.spread_self hp e)
  | .branch condition whenTrue none => .branch (Expr.spread_self hp condition) (Stmt.spread_self hp whenTrue) .none
  | .branch condition whenTrue (some whenFalse) =>
    .branch (Expr.spread_self hp condition) (Stmt.spread_self hp whenTrue) (.some (Stmt.spread_self hp whenFalse))
  | .print e => .print (Expr.spread_self hp e)
  | .giveBack keyword value => .giveBack keyword (Expr.spread?_self hp value)
  | .assign name value site => by
    have h := Stmt.Spread.assign name site (Binding.shared_of_not_mem hp) (Expr.spread?_self hp value)
    rwa [Binding.map_shift_of_not_mem hp] at h
  | .loop condition body => .loop (Expr.spread_self hp condition) (Stmt.spread_self hp body)
  | .unknown => .unknown

theorem Stmt.spreadAll_self {p : List Bool} (hp : false ∉ p) : (ss : List (Stmt Distance)) → Stmt.SpreadAll p ss ss
  | [] => .nil
  | s :: ss => .cons (Stmt.spread_self hp s) (Stmt.spreadAll_self hp ss)

theorem Routine.spread_self {p : List Bool} (hp : false ∉ p) : (r : Routine Distance) → Routine.Spread p r r
  | .mk name params body returnType =>
    .mk name params returnType (Stmt.spreadAll_self (Binding.not_mem_cons_true hp) body)

theorem Routine.spreadAll_self {p : List Bool} (hp : false ∉ p) : (rs : List (Routine Distance)) →
    Routine.SpreadAll p rs rs
  | [] => .nil
  | r :: rs => .cons (Routine.spread_self hp r) (Routine.spreadAll_self hp rs)

end

/-! ### Arguments and routines -/

theorem Expr.SpreadAll.length_eq {p : List Bool} {es es' : List (Expr Distance)} (h : Expr.SpreadAll p es es') :
    es'.length = es.length := by
  induction es generalizing es' with
  | nil =>
    cases h
    rfl
  | cons e es ih =>
    cases h with
    | cons _ hs => rw [List.length_cons, List.length_cons, ih hs]

section Routines

variable {p : List Bool} {r r' : Routine Distance}

theorem Routine.Spread.name_eq (h : Routine.Spread p r r') : r'.name = r.name := by
  cases h
  rfl

theorem Routine.Spread.params_eq (h : Routine.Spread p r r') : r'.params = r.params := by
  cases h
  rfl

theorem Routine.Spread.body (h : Routine.Spread p r r') : Stmt.SpreadAll (true :: p) r.body r'.body := by
  cases h with
  | mk name params returnType h => exact h

theorem Routine.Spread.isInitializer_eq (h : Routine.Spread p r r') : r'.isInitializer = r.isInitializer := by
  rw [Routine.isInitializer, Routine.isInitializer, h.name_eq]

end Routines

namespace Binding

open Step (Pairs)

/-! ## Scopes -/

/-- The second list has the scopes of the first one, and inserted ones that declare nothing, as a pattern says. -/
inductive Padded : List Bool → List Scope → List Scope → Prop
  | nil : Padded [] [] []
  | shared {p : List Bool} {scopes scopes' : List Scope} (scope : Scope) (h : Padded p scopes scopes') :
      Padded (true :: p) (scope :: scopes) (scope :: scopes')
  | inserted {p : List Bool} {scopes scopes' : List Scope} (h : Padded p scopes scopes') :
      Padded (false :: p) scopes ([] :: scopes')

namespace Padded

variable {p : List Bool} {scopes scopes' : List Scope}

theorem distance? (h : Padded p scopes scopes') (name : String) :
    Binding.distance? scopes' name = (Binding.distance? scopes name).map (shift p) := by
  induction h with
  | nil => rfl
  | @shared p scopes scopes' scope _ ih =>
    simp only [Binding.distance?, List.findIdx?_cons] at ih ⊢
    cases scope.declares name with
    | true => rfl
    | false =>
      simp only [Bool.false_eq_true, if_false, ih, Option.map_map]
      rfl
  | @inserted p scopes scopes' _ ih =>
    rw [distance?_cons_of_not_declares rfl, ih, Option.map_map]
    rfl

theorem length (h : Padded p scopes scopes') : scopes'.length = shift p scopes.length := by
  induction h with
  | nil => rfl
  | shared scope _ ih => rw [List.length_cons, List.length_cons, ih, shift]
  | inserted _ ih => rw [List.length_cons, ih, shift]

theorem isEmpty (h : Padded p scopes scopes') (hp : Shared p) : scopes'.isEmpty = scopes.isEmpty := by
  cases h with
  | nil | shared => rfl
  | inserted => exact absurd rfl hp

theorem target? (h : Padded p scopes scopes') (hp : Shared p) (globals : List String) (name : String) :
    Binding.target? globals scopes' name = (Binding.target? globals scopes name).map (shift p) := by
  simp only [Binding.target?, h.distance?, h.isEmpty hp, h.length]
  cases Binding.distance? scopes name with
  | some d => rfl
  | none =>
    simp only [Option.map_none]
    split <;> rfl

theorem enter (h : Padded p scopes scopes') (hp : Shared p) (name : String) (ready : Bool) :
    Padded p (Binding.enter name ready scopes) (Binding.enter name ready scopes') := by
  cases h with
  | nil => exact .nil
  | shared scope h => exact .shared _ h
  | inserted => exact absurd rfl hp

theorem allReady (h : Padded p scopes scopes') (hready : AllReady scopes) : AllReady scopes' := by
  induction h with
  | nil => exact hready
  | shared scope _ ih => exact (ih hready.tail).cons (hready scope List.mem_cons_self)
  | inserted _ ih => exact (ih hready).cons fun _ h => by cases h

theorem isPending (h : Padded p scopes scopes') (hp : Shared p) (name : String) :
    Binding.isPending scopes' name = Binding.isPending scopes name := by
  cases h with
  | nil | shared => rfl
  | inserted => exact absurd rfl hp

end Padded

/-- No inserted scope is between the innermost scope that declares `super` and the one inside it. -/
def Tight (p : List Bool) (scopes : List Scope) : Prop :=
  ∀ d, distance? scopes "super" = some d → shift p d = shift p (d - 1) + 1

/-- The scopes at an expression. -/
structure Reads (p : List Bool) (scopes scopes' : List Scope) : Prop where
  padded : Padded p scopes scopes'
  pending : ∀ name, isPending scopes' name = isPending scopes name
  tight : Tight p scopes

/-- The scopes at a statement. -/
structure Pads (p : List Bool) (scopes scopes' : List Scope) : Prop where
  padded : Padded p scopes scopes'
  ready : AllReady scopes
  tight : Tight p scopes

namespace Tight

variable {p : List Bool} {scopes : List Scope}

theorem inserted (h : Tight p scopes) : Tight (false :: p) scopes := by
  intro d hd
  rw [shift, shift, h d hd]

theorem shared (h : Tight p scopes) {scope : Scope} (hscope : scope.declares "super" = false) :
    Tight (true :: p) (scope :: scopes) := by
  intro d hd
  rw [distance?_cons_of_not_declares hscope, Option.map_eq_some_iff] at hd
  obtain ⟨d, hd, rfl⟩ := hd
  have hstep := h d hd
  cases d with
  | zero => simp at hstep
  | succ d => simp_all [shift]

theorem enter (h : Tight p scopes) {name : String} (hname : Bindable name) (ready : Bool) :
    Tight p (Binding.enter name ready scopes) := by
  intro d hd
  rw [distance?_enter_of_ne hname.2] at hd
  exact h d hd

theorem classScopes (h : Tight p scopes) (derived : Bool) :
    Tight (classPattern derived p) (Binding.classScopes derived scopes) := by
  cases derived with
  | false => exact h.shared rfl
  | true =>
    intro d hd
    obtain rfl : d = 1 := by
      cases hd
      rfl
    rfl

end Tight

namespace Pads

variable {p : List Bool} {scopes scopes' : List Scope}

theorem reads (h : Pads p scopes scopes') : Reads p scopes scopes' :=
  ⟨h.padded, fun name => by rw [not_isPending h.ready, not_isPending (h.padded.allReady h.ready)], h.tight⟩

theorem shared (h : Pads p scopes scopes') {scope : Scope} (hready : ∀ name, scope.lookup name ≠ some false)
    (hsuper : scope.declares "super" = false) : Pads (true :: p) (scope :: scopes) (scope :: scopes') :=
  ⟨.shared scope h.padded, h.ready.cons hready, h.tight.shared hsuper⟩

theorem inserted (h : Pads p scopes scopes') : Pads (false :: p) scopes ([] :: scopes') :=
  ⟨.inserted h.padded, h.ready, h.tight.inserted⟩

theorem tail (h : Pads (false :: p) scopes scopes') : Pads p scopes scopes'.tail := by
  obtain ⟨hpadded, hready, htight⟩ := h
  cases hpadded with
  | inserted hpadded => exact ⟨hpadded, hready, fun d hd => Nat.add_right_cancel (htight d hd)⟩

theorem enter (h : Pads p scopes scopes') (hp : Shared p) {name : String} (hname : Bindable name) :
    Pads p (Binding.enter name true scopes) (Binding.enter name true scopes') :=
  ⟨h.padded.enter hp name true, h.ready.enter name, h.tight.enter hname true⟩

theorem classScopes (h : Pads p scopes scopes') (derived : Bool) :
    Pads (classPattern derived p) (Binding.classScopes derived scopes) (Binding.classScopes derived scopes') := by
  refine ⟨?_, allReady_classScopes derived h.ready, h.tight.classScopes derived⟩
  cases derived with
  | false => exact .shared _ h.padded
  | true => exact .shared _ (.shared _ h.padded)

/-- While a value is walked, the name that it is for is pending. -/
theorem pending (h : Pads p scopes scopes') (hp : Shared p) {name : String} (hname : Bindable name) :
    Reads p (Binding.enter name false scopes) (Binding.enter name false scopes') := by
  have hpadded := h.padded.enter hp name false
  exact ⟨hpadded, fun other => hpadded.isPending hp other, h.tight.enter hname false⟩

end Pads

/-! ## Steps -/

/-- The walks are inside the given scopes and have reported the same. -/
structure Beside (scopes scopes' : List Scope) (w w' : Walk) : Prop where
  left : w.scopes = scopes
  right : w'.scopes = scopes'
  reports : w'.reports = w.reports

/-- Two steps yield what is related, and leave the scopes as they are. -/
def Stay (scopes scopes' : List Scope) {α : Type} (rel : α → α → Prop) (r r' : EStateM.Result Unknown Walk α) :
    Prop :=
  Pairs (fun a w a' w' => rel a a' ∧ Beside scopes scopes' w w') (fun _ _ => True) r r'

/-- From the given scopes the walks have moved on to scopes that differ in their innermost one. -/
structure Moves (p : List Bool) (scopes scopes' : List Scope) (w w' : Walk) : Prop where
  pads : Pads p w.scopes w'.scopes
  left : w.scopes.tail = scopes.tail
  right : w'.scopes.tail = scopes'.tail
  reports : w'.reports = w.reports

/-- Two steps yield what is related, and move on. -/
def Move (p : List Bool) (scopes scopes' : List Scope) {α : Type} (rel : α → α → Prop)
    (r r' : EStateM.Result Unknown Walk α) : Prop :=
  Pairs (fun a w a' w' => rel a a' ∧ Moves p scopes scopes' w w') (fun _ _ => True) r r'

section Steps

variable {p : List Bool} {scopes scopes' : List Scope} {w w' : Walk} {α β : Type} {rel : α → α → Prop}
  {next : β → Walk → β → Walk → Prop}

theorem Stay.bind {a b : Binder α} {f g : α → Binder β} (h : Stay scopes scopes' rel (a w) (b w'))
    (hf : ∀ x x' w₁ w₁', rel x x' → Beside scopes scopes' w₁ w₁' →
      Pairs next (fun _ _ => True) (f x w₁) (g x' w₁')) :
    Pairs next (fun _ _ => True) ((a >>= f) w) ((b >>= g) w') :=
  Pairs.bind h fun x w₁ x' w₁' h₁ => hf x x' w₁ w₁' h₁.1 h₁.2

theorem Move.bind {a b : Binder α} {f g : α → Binder β} (h : Move p scopes scopes' rel (a w) (b w'))
    (hf : ∀ x x' w₁ w₁', rel x x' → Moves p scopes scopes' w₁ w₁' →
      Pairs next (fun _ _ => True) (f x w₁) (g x' w₁')) :
    Pairs next (fun _ _ => True) ((a >>= f) w) ((b >>= g) w') :=
  Pairs.bind h fun x w₁ x' w₁' h₁ => hf x x' w₁ w₁' h₁.1 h₁.2

theorem Beside.pure (h : Beside scopes scopes' w w') {x x' : α} (hx : rel x x') :
    Stay scopes scopes' rel ((pure x : Binder α) w) ((pure x' : Binder α) w') :=
  ⟨hx, h⟩

theorem Moves.pure (h : Moves p scopes scopes' w w') {x x' : α} (hx : rel x x') :
    Move p scopes scopes' rel ((pure x : Binder α) w) ((pure x' : Binder α) w') :=
  ⟨hx, h⟩

theorem Moves.beside (h : Moves p scopes scopes' w w') : Beside w.scopes w'.scopes w w' :=
  ⟨rfl, rfl, h.reports⟩

theorem Beside.moves {inner inner' : List Scope} (h : Beside inner inner' w w') (hpads : Pads p inner inner')
    (hleft : inner.tail = scopes.tail) (hright : inner'.tail = scopes'.tail) : Moves p scopes scopes' w w' := by
  obtain ⟨rfl, rfl, hreports⟩ := h
  exact ⟨hpads, hleft, hright, hreports⟩

/-- Steps that go on from where others ended. -/
theorem Moves.move (h : Moves p scopes scopes' w w') {r r' : EStateM.Result Unknown Walk α}
    (hr : Move p w.scopes w'.scopes rel r r') : Move p scopes scopes' rel r r' :=
  Pairs.mono hr (fun _ _ _ _ h₁ => ⟨h₁.1, h₁.2.pads, h₁.2.left.trans h.left, h₁.2.right.trans h.right,
    h₁.2.reports⟩) fun _ _ _ => trivial

theorem Beside.complain (h : Beside scopes scopes' w w') (t : Token) (problem : Problem) :
    Stay scopes scopes' (fun _ _ => True) (Binding.complain t problem w) (Binding.complain t problem w') := by
  refine ⟨trivial, h.left, h.right, ?_⟩
  show w'.reports ++ _ = w.reports ++ _
  rw [h.reports]

theorem Beside.locate (h : Beside scopes scopes' w w') (hpadded : Padded p scopes scopes') (name : String) :
    Stay scopes scopes' (fun site site' => site' = site.map (shift p) ∧ site = Binding.distance? scopes name)
      (Binding.locate name w) (Binding.locate name w') := by
  refine ⟨⟨?_, ?_⟩, h⟩
  · show Binding.distance? w'.scopes name = (Binding.distance? w.scopes name).map (shift p)
    rw [h.left, h.right, hpadded.distance?]
  · show Binding.distance? w.scopes name = _
    rw [h.left]

theorem Beside.locateVariable (h : Beside scopes scopes' w w') (hreads : Reads p scopes scopes') (t : Token) :
    Stay scopes scopes' (fun site site' => site' = site.map (shift p)) (Binding.locateVariable t w)
      (Binding.locateVariable t w') := by
  have hlocate : ∀ w₁ w₁', Beside scopes scopes' w₁ w₁' →
      Stay scopes scopes' (fun site site' => site' = site.map (shift p)) (Binding.locate t.lexeme w₁)
        (Binding.locate t.lexeme w₁') := fun w₁ w₁' h₁ =>
    Pairs.mono (h₁.locate hreads.padded t.lexeme) (fun _ _ _ _ h₂ => ⟨h₂.1.1, h₂.2⟩) fun _ _ _ => trivial
  rw [locateVariable_apply, locateVariable_apply, h.left, h.right, hreads.pending]
  cases isPending scopes t.lexeme with
  | false => exact hlocate w w' h
  | true => exact Stay.bind (h.complain t .ownInitializer) fun _ _ w₁ w₁' _ h₁ => hlocate w₁ w₁' h₁

theorem Beside.declare (h : Beside scopes scopes' w w') (name : String) (ready : Bool) :
    Pairs (fun _ w₁ _ w₁' => Beside (enter name ready scopes) (enter name ready scopes') w₁ w₁')
      (fun _ _ => True) (Binding.declare name ready w) (Binding.declare name ready w') := by
  obtain ⟨rfl, rfl, hreports⟩ := h
  exact ⟨rfl, rfl, hreports⟩

/-- The walk with its innermost scope closed. -/
def Walk.closed (w : Walk) : Walk :=
  { w with scopes := w.scopes.tail }

/-- Two steps yield what is related, and leave the scopes outside the innermost one as they are. -/
def StayOutside (scopes scopes' : List Scope) {α : Type} (rel : α → α → Prop)
    (r r' : EStateM.Result Unknown Walk α) : Prop :=
  Pairs (fun a w a' w' => rel a a' ∧ Beside scopes scopes' w.closed w'.closed) (fun _ _ => True) r r'

theorem Stay.outside {scope scope' : Scope} {r r' : EStateM.Result Unknown Walk α}
    (h : Stay (scope :: scopes) (scope' :: scopes') rel r r') : StayOutside scopes scopes' rel r r' :=
  Pairs.mono h (fun _ _ _ _ h₁ => ⟨h₁.1, congrArg List.tail h₁.2.left, congrArg List.tail h₁.2.right,
    h₁.2.reports⟩) fun _ _ _ => trivial

theorem Move.outside {scope scope' : Scope} {r r' : EStateM.Result Unknown Walk α}
    (h : Move p (scope :: scopes) (scope' :: scopes') rel r r') : StayOutside scopes scopes' rel r r' :=
  Pairs.mono h (fun _ _ _ _ h₁ => ⟨h₁.1, h₁.2.left, h₁.2.right, h₁.2.reports⟩) fun _ _ _ => trivial

/-- A step inside one more scope, which is closed behind it. -/
theorem inScope_apply (scope : Scope) (step : Binder α) (w : Walk) :
    inScope scope step w =
      match step (w.within scope) with
      | .ok a inner => .ok a inner.closed
      | .error e inner => .error e inner := by
  have hopen : (modify fun w => { w with scopes := scope :: w.scopes } : Binder PUnit) w =
      .ok () (w.within scope) := rfl
  rw [inScope, Step.bind_of_ok hopen]
  cases h : step (w.within scope) with
  | ok a inner =>
    rw [Step.bind_of_ok h]
    rfl
  | error e inner => rw [Step.bind_of_error h]

/-- The same scope is opened on both sides. -/
theorem Beside.inScope (h : Beside scopes scopes' w w') (scope : Scope) {a b : Binder α}
    (hstep : ∀ w₁ w₁', Beside (scope :: scopes) (scope :: scopes') w₁ w₁' →
      StayOutside scopes scopes' rel (a w₁) (b w₁')) :
    Stay scopes scopes' rel (Binding.inScope scope a w) (Binding.inScope scope b w') := by
  obtain ⟨rfl, rfl, hreports⟩ := h
  have hinner := hstep (w.within scope) (w'.within scope) ⟨rfl, rfl, hreports⟩
  rw [inScope_apply, inScope_apply]
  cases ha : a (w.within scope) <;> cases hb : b (w'.within scope) <;> rw [ha, hb] at hinner <;> exact hinner

theorem Beside.inClass (h : Beside scopes scopes' w w') (derived : Bool) {a b : Binder α}
    (hstep : ∀ w₁ w₁', Beside (classScopes derived scopes) (classScopes derived scopes') w₁ w₁' →
      Stay (classScopes derived scopes) (classScopes derived scopes') rel (a w₁) (b w₁')) :
    Stay scopes scopes' rel (Binding.inClass derived a w) (Binding.inClass derived b w') := by
  cases derived with
  | false => exact h.inScope _ fun w₁ w₁' h₁ => (hstep w₁ w₁' h₁).outside
  | true =>
    refine h.inScope _ fun w₁ w₁' h₁ => Stay.outside (h₁.inScope _ fun w₂ w₂' h₂ => ?_)
    exact (hstep w₂ w₂' h₂).outside

/-- A scope is inserted on the second side alone. -/
theorem Beside.insert (h : Beside scopes scopes' w w') {a b : Binder α}
    (hstep : ∀ w₁', Beside scopes ([] :: scopes') w w₁' →
      Move (false :: p) scopes ([] :: scopes') rel (a w) (b w₁')) :
    Move p scopes scopes' rel (a w) (Binding.inScope [] b w') := by
  obtain ⟨rfl, rfl, hreports⟩ := h
  have hinner := hstep (w'.within []) ⟨rfl, rfl, hreports⟩
  rw [inScope_apply]
  cases ha : a w <;> cases hb : b (w'.within []) <;> rw [ha, hb] at hinner
  · obtain ⟨hrel, hpads, hleft, hright, hreports⟩ := hinner
    exact ⟨hrel, hpads.tail, hleft, congrArg List.tail hright, hreports⟩
  · exact hinner
  · exact hinner
  · exact hinner

end Steps

/-! ## Expressions -/

section Expressions

variable {p : List Bool} {scopes scopes' : List Scope}

theorem Beside.checkSuper {w w' : Walk} (h : Beside scopes scopes' w w') (ctx : Context) (keyword : Token) :
    Stay scopes scopes' (fun _ _ => True) (Binding.checkSuper ctx keyword w)
      (Binding.checkSuper ctx keyword w') := by
  unfold Binding.checkSuper
  cases ctx.owner with
  | noClass | baseClass => exact h.complain keyword _
  | subclass => exact h.pure trivial

mutual

theorem expr_spreads (ctx : Context) (hreads : Reads p scopes scopes') : (e : Expr Unit) → ∀ {w w' : Walk},
    Beside scopes scopes' w w' → Stay scopes scopes' (Expr.Spread p) (expr ctx e w) (expr ctx e w')
  | .literal value, w, w', h => h.pure (.literal value)
  | .group inner, w, w', h => by
    simp only [expr]
    exact Stay.bind (expr_spreads ctx hreads inner h) fun _ _ _ _ he h₁ => h₁.pure (.group he)
  | .unary operator operand, w, w', h => by
    simp only [expr]
    exact Stay.bind (expr_spreads ctx hreads operand h) fun _ _ _ _ he h₁ => h₁.pure (.unary operator he)
  | .binary left operator right, w, w', h => by
    simp only [expr]
    refine Stay.bind (expr_spreads ctx hreads left h) fun _ _ _ _ hl h₁ => ?_
    exact Stay.bind (expr_spreads ctx hreads right h₁) fun _ _ _ _ hr h₂ => h₂.pure (.binary operator hl hr)
  | .logical left operator right, w, w', h => by
    simp only [expr]
    refine Stay.bind (expr_spreads ctx hreads left h) fun _ _ _ _ hl h₁ => ?_
    exact Stay.bind (expr_spreads ctx hreads right h₁) fun _ _ _ _ hr h₂ => h₂.pure (.logical operator hl hr)
  | .name token _, w, w', h => by
    simp only [expr]
    refine Stay.bind (h.locateVariable hreads token) fun site site' _ _ hsite h₁ => ?_
    obtain rfl := hsite
    exact h₁.pure (.name token site)
  | .setField object field value, w, w', h => by
    simp only [expr]
    refine Stay.bind (expr_spreads ctx hreads value h) fun _ _ _ _ hv h₁ => ?_
    exact Stay.bind (expr_spreads ctx hreads object h₁) fun _ _ _ _ ho h₂ => h₂.pure (.setField field ho hv)
  | .getField object field, w, w', h => by
    simp only [expr]
    exact Stay.bind (expr_spreads ctx hreads object h) fun _ _ _ _ ho h₁ => h₁.pure (.getField field ho)
  | .call callee paren arguments, w, w', h => by
    simp only [expr]
    refine Stay.bind (expr_spreads ctx hreads callee h) fun _ _ _ _ hc h₁ => ?_
    exact Stay.bind (exprs_spread ctx hreads arguments h₁) fun _ _ _ _ hargs h₂ => h₂.pure (.call paren hc hargs)
  | .thisRef keyword _, w, w', h => by
    simp only [expr]
    split
    · exact Stay.bind (h.complain keyword _) fun _ _ _ _ _ h₁ => h₁.pure (.thisRef keyword none)
    · refine Stay.bind (h.locate hreads.padded "this") fun site site' _ _ hsite h₁ => ?_
      obtain ⟨rfl, -⟩ := hsite
      exact h₁.pure (.thisRef keyword site)
  | .superRef keyword method _, w, w', h => by
    simp only [expr]
    refine Stay.bind (h.checkSuper ctx keyword) fun _ _ _ _ _ h₁ => ?_
    refine Stay.bind (h₁.locate hreads.padded "super") fun site site' _ _ hsite h₂ => ?_
    obtain ⟨rfl, hsuper⟩ := hsite
    refine h₂.pure (.superRef keyword method site fun d hd => ?_)
    rw [hreads.tight d (hsuper.symm.trans hd), Nat.add_sub_cancel]
  | .unknown, w, w', h => ⟨rfl, trivial⟩

theorem exprs_spread (ctx : Context) (hreads : Reads p scopes scopes') : (es : List (Expr Unit)) →
    ∀ {w w' : Walk}, Beside scopes scopes' w w' →
      Stay scopes scopes' (Expr.SpreadAll p) (exprs ctx es w) (exprs ctx es w')
  | [], w, w', h => h.pure .nil
  | e :: es, w, w', h => by
    simp only [exprs]
    refine Stay.bind (expr_spreads ctx hreads e h) fun _ _ _ _ he h₁ => ?_
    exact Stay.bind (exprs_spread ctx hreads es h₁) fun _ _ _ _ hes h₂ => h₂.pure (.cons he hes)

end

theorem expr?_spreads (ctx : Context) (hreads : Reads p scopes scopes') (e : Option (Expr Unit)) {w w' : Walk}
    (h : Beside scopes scopes' w w') :
    Stay scopes scopes' (Option.Rel (Expr.Spread p)) (expr? ctx e w) (expr? ctx e w') := by
  cases e with
  | none => exact h.pure .none
  | some e => exact Stay.bind (expr_spreads ctx hreads e h) fun _ _ _ _ he h₁ => h₁.pure (.some he)

end Expressions

/-! ## Statements -/

section Statements

variable {p : List Bool} {scopes scopes' : List Scope} {w w' : Walk}

theorem Beside.superclass (h : Beside scopes scopes' w w') (hreads : Reads p scopes scopes') (name : Token)
    (parent : Option (Token × Unit)) :
    Stay scopes scopes' (fun t t' => t' = t.map (fun q => (q.1, q.2.map (shift p))) ∧ t.isSome = parent.isSome)
      (Binding.superclass name parent w) (Binding.superclass name parent w') := by
  cases parent with
  | none => exact h.pure ⟨rfl, rfl⟩
  | some t =>
    have hcompared : Stay scopes scopes' (fun _ _ => True) (compareParent name t.1 w)
        (compareParent name t.1 w') := by
      unfold compareParent
      split
      · exact h.complain t.1 _
      · exact h.pure trivial
    rw [superclass_some]
    refine Stay.bind hcompared fun _ _ w₁ w₁' _ h₁ => ?_
    refine Stay.bind (h₁.locateVariable hreads t.1) fun site site' _ _ hsite h₂ => ?_
    obtain rfl := hsite
    exact h₂.pure ⟨rfl, rfl⟩

theorem Beside.checkReturn (h : Beside scopes scopes' w w') (ctx : Context) (keyword : Token) (hasValue : Bool) :
    Stay scopes scopes' (fun _ _ => True) (Binding.checkReturn ctx keyword hasValue w)
      (Binding.checkReturn ctx keyword hasValue w') := by
  unfold Binding.checkReturn
  split <;> split
  · exact Stay.bind (h.complain keyword _) fun _ _ _ _ _ h₁ => h₁.complain keyword _
  · exact Stay.bind (h.complain keyword _) fun _ _ _ _ _ h₁ => h₁.pure trivial
  · exact h.complain keyword _
  · exact h.pure trivial

theorem assign_spreads (ctx : Context) {name : Token} (value : Option (Expr Unit)) (hname : Bindable name.lexeme)
    (hp : Shared p) (hpads : Pads p scopes scopes') (h : Beside scopes scopes' w w') :
    Move p scopes scopes' (Stmt.Spread p) (assign ctx name value w) (assign ctx name value w') := by
  rw [assign_apply, assign_apply, h.left, h.right, hpads.padded.target? hp]
  cases target? ctx.globals scopes name.lexeme with
  | some d =>
    refine Stay.bind (expr?_spreads ctx hpads.reads value h) fun _ _ _ _ hv h₁ => ?_
    exact (h₁.moves hpads rfl rfl).pure (.assign name (some d) hp hv)
  | none =>
    refine Pairs.bind (h.declare name.lexeme false) fun _ _ _ _ h₁ => ?_
    refine Stay.bind (expr?_spreads ctx (hpads.pending hp hname) value h₁) fun v _ _ _ hv h₂ => ?_
    refine Pairs.bind (h₂.declare name.lexeme true) fun _ _ _ _ h₃ => ?_
    have hpadded := (hpads.padded.enter hp name.lexeme false).enter hp name.lexeme true
    have hready := hpads.ready.declared (.assign name v none)
    have htight := (hpads.tight.enter hname false).enter hname true
    refine (h₃.moves ⟨hpadded, hready, htight⟩ ?_ ?_).pure (.assign name none hp hv)
    · rw [tail_enter, tail_enter]
    · rw [tail_enter, tail_enter]

/-- A statement that binds a name is not behind an inserted scope. -/
theorem shared_of_boundName? {s : Stmt Unit} {name : String} (hname : boundName? s = some name)
    (h : ¬ Shared p → boundName? s = none) : Shared p := by
  by_contra hp
  rw [h hp] at hname
  cases hname

theorem boxed_nested (s : Stmt Unit) : s.nested.boxed = s.nested ∨ s.nested.boxed = .block [s.nested] := by
  cases h : s.nested with
  | branch condition whenTrue whenFalse => exact Or.inr rfl
  | _ => exact Or.inl rfl

/-- The walk over a statement in a block of its own. -/
theorem stmt_block_singleton (ctx : Context) (s : Stmt Unit) :
    stmt ctx (.block [s]) = inScope [] (stmt ctx s) >>= fun b => pure (.block [b]) := by
  funext w
  have hblock : stmt ctx (.block [s]) w =
      ((inScope [] (stmt ctx s >>= fun b => pure [b])) >>= fun bs => pure (.block bs) : Binder (Stmt Distance)) w := by
    simp only [stmt, stmts, pure_bind]
  rw [hblock]
  cases h : stmt ctx s (w.within []) with
  | ok b inner =>
    have hlist : (stmt ctx s >>= fun b => pure [b] : Binder (List (Stmt Distance))) (w.within []) =
        .ok [b] inner := Step.bind_of_ok h
    have hone : inScope [] (stmt ctx s) w = .ok b inner.closed := by rw [inScope_apply, h]
    have hall : inScope [] (stmt ctx s >>= fun b => pure [b]) w = .ok [b] inner.closed := by
      rw [inScope_apply, hlist]
    rw [Step.bind_of_ok hone, Step.bind_of_ok hall]
  | error e inner =>
    have hlist : (stmt ctx s >>= fun b => pure [b] : Binder (List (Stmt Distance))) (w.within []) =
        .error e inner := Step.bind_of_error h
    have hone : inScope [] (stmt ctx s) w = .error e inner := by rw [inScope_apply, h]
    have hall : inScope [] (stmt ctx s >>= fun b => pure [b]) w = .error e inner := by
      rw [inScope_apply, hlist]
    rw [Step.bind_of_error hone, Step.bind_of_error hall]

/-- A block is inserted around a statement on the second side alone. -/
theorem move_block (ctx : Context) {s s' : Stmt Unit} (h : Beside scopes scopes' w w')
    (hstep : ∀ w₁', Beside scopes ([] :: scopes') w w₁' →
      Move (false :: p) scopes ([] :: scopes') (Stmt.Spread (false :: p)) (stmt ctx s w) (stmt ctx s' w₁')) :
    Move p scopes scopes' (Stmt.Spread p) (stmt ctx s w) (stmt ctx (.block [s']) w') := by
  rw [stmt_block_singleton, ← bind_pure (stmt ctx s)]
  exact Move.bind (h.insert hstep) fun _ _ _ _ hb h₁ => h₁.pure (.inserted hb)

mutual

/-- The walks over a statement and over the nested one go alike.  Behind an inserted scope there are only
statements that bind no name. -/
theorem stmt_spreads (ctx : Context) : (s : Stmt Unit) → s.Plain → ∀ {p : List Bool} {scopes scopes' : List Scope}
    {w w' : Walk}, (¬ Shared p → boundName? s = none) → Pads p scopes scopes' → Beside scopes scopes' w w' →
      Move p scopes scopes' (Stmt.Spread p) (stmt ctx s w) (stmt ctx s.nested w')
  | .block body, hs, p, scopes, scopes', w, w', _, hpads, h => by
    simp only [Stmt.nested, stmt]
    have hpads₁ : Pads (true :: p) ([] :: scopes) ([] :: scopes') := hpads.shared nofun rfl
    have hbody := h.inScope [] fun _ _ h₁ => (stmts_spread ctx body hs (shared_cons p) hpads₁ h₁).outside
    exact Stay.bind hbody fun _ _ _ _ hbody' h₂ => (h₂.moves hpads rfl rfl).pure (.block hbody')
  | .define r, hs, p, scopes, scopes', w, w', hopen, hpads, h => by
    have hp := shared_of_boundName? rfl hopen
    simp only [Stmt.nested, stmt, Routine.name_nested]
    have hpads₁ := hpads.enter hp hs.1
    refine Pairs.bind (h.declare r.name.lexeme true) fun _ _ _ _ h₁ => ?_
    refine Stay.bind (routine_spreads { ctx with body := .function } r hs.2 hpads₁ h₁) fun _ _ _ _ hr h₂ => ?_
    exact (h₂.moves hpads₁ (tail_enter _ _ _) (tail_enter _ _ _)).pure (.define hp hr)
  | .classDef name parent methods, hs, p, scopes, scopes', w, w', hopen, hpads, h => by
    have hp := shared_of_boundName? rfl hopen
    simp only [Stmt.nested, stmt]
    have hpads₁ := hpads.enter hp hs.1
    refine Pairs.bind (h.declare name.lexeme true) fun _ _ _ _ h₁ => ?_
    refine Stay.bind (h₁.superclass hpads₁.reads name parent) fun t t' _ _ ht h₂ => ?_
    obtain ⟨rfl, hsome⟩ := ht
    let owner := if parent.isSome then Owner.subclass else .baseClass
    have hmethods := h₂.inClass parent.isSome fun _ _ h₃ =>
      routines_spread { ctx with owner := owner } methods hs.2 (hpads₁.classScopes parent.isSome) h₃
    refine Stay.bind hmethods fun _ _ _ _ hms h₄ => ?_
    refine (h₄.moves hpads₁ (tail_enter _ _ _) (tail_enter _ _ _)).pure (.classDef name t hp ?_)
    rw [hsome]
    exact hms
  | .evaluate e, hs, p, scopes, scopes', w, w', _, hpads, h => by
    simp only [Stmt.nested, stmt]
    refine Stay.bind (expr_spreads ctx hpads.reads e h) fun _ _ _ _ he h₁ => ?_
    exact (h₁.moves hpads rfl rfl).pure (.evaluate he)
  | .branch condition whenTrue none, hs, p, scopes, scopes', w, w', _, hpads, h => by
    obtain ⟨-, hname, ht⟩ := hs
    simp only [Stmt.nested, stmt]
    refine Stay.bind (expr_spreads ctx hpads.reads condition h) fun _ _ _ _ hc h₁ => ?_
    refine Move.bind (stmt_spreads ctx whenTrue ht (fun _ => hname) hpads h₁) fun _ _ _ _ ht' h₂ => ?_
    exact h₂.pure (.branch hc ht' .none)
  | .branch condition whenTrue (some whenFalse), hs, p, scopes, scopes', w, w', _, hpads, h => by
    obtain ⟨-, ⟨hname, ht⟩, hname', hf⟩ := hs
    simp only [Stmt.nested, stmt]
    refine Stay.bind (expr_spreads ctx hpads.reads condition h) fun _ _ _ _ hc h₁ => ?_
    refine Move.bind (stmt_spreads ctx whenTrue ht (fun _ => hname) hpads h₁) fun _ _ w₂ w₂' ht' h₂ => ?_
    have hwhenFalse : Move p scopes scopes' (Stmt.Spread p) (stmt ctx whenFalse w₂)
        (stmt ctx whenFalse.nested.boxed w₂') := by
      refine h₂.move ?_
      rcases boxed_nested whenFalse with hplain | hboxed
      · rw [hplain]
        exact stmt_spreads ctx whenFalse hf (fun _ => hname') h₂.pads h₂.beside
      · rw [hboxed]
        exact move_block ctx h₂.beside fun _ h₃ =>
          stmt_spreads ctx whenFalse hf (fun _ => hname') h₂.pads.inserted h₃
    exact Move.bind hwhenFalse fun _ _ _ _ hf' h₃ => h₃.pure (.branch hc ht' (.some hf'))
  | .print e, hs, p, scopes, scopes', w, w', _, hpads, h => by
    simp only [Stmt.nested, stmt]
    refine Stay.bind (expr_spreads ctx hpads.reads e h) fun _ _ _ _ he h₁ => ?_
    exact (h₁.moves hpads rfl rfl).pure (.print he)
  | .giveBack keyword value, hs, p, scopes, scopes', w, w', _, hpads, h => by
    simp only [Stmt.nested, stmt]
    refine Stay.bind (h.checkReturn ctx keyword value.isSome) fun _ _ _ _ _ h₁ => ?_
    refine Stay.bind (expr?_spreads ctx hpads.reads value h₁) fun _ _ _ _ hv h₂ => ?_
    exact (h₂.moves hpads rfl rfl).pure (.giveBack keyword hv)
  | .assign name value _, hs, p, scopes, scopes', w, w', hopen, hpads, h => by
    have hp := shared_of_boundName? rfl hopen
    simp only [Stmt.nested, stmt]
    exact assign_spreads ctx value hs.1 hp hpads h
  | .loop condition body, hs, p, scopes, scopes', w, w', _, hpads, h => by
    obtain ⟨-, hname, hb⟩ := hs
    simp only [Stmt.nested, stmt]
    refine Stay.bind (expr_spreads ctx hpads.reads condition h) fun _ _ _ _ hc h₁ => ?_
    refine Move.bind (stmt_spreads ctx body hb (fun _ => hname) hpads h₁) fun _ _ _ _ hb' h₂ => ?_
    exact h₂.pure (.loop hc hb')
  | .unknown, _, p, scopes, scopes', w, w', _, _, _ => ⟨rfl, trivial⟩

theorem stmts_spread (ctx : Context) : (ss : List (Stmt Unit)) → Stmt.PlainAll ss → ∀ {p : List Bool}
    {scopes scopes' : List Scope} {w w' : Walk}, Shared p → Pads p scopes scopes' → Beside scopes scopes' w w' →
      Move p scopes scopes' (Stmt.SpreadAll p) (stmts ctx ss w) (stmts ctx (Stmt.nestedAll ss) w')
  | [], _, p, scopes, scopes', w, w', _, hpads, h => (h.moves hpads rfl rfl).pure .nil
  | s :: ss, hs, p, scopes, scopes', w, w', hp, hpads, h => by
    simp only [Stmt.nestedAll, stmts]
    refine Move.bind (stmt_spreads ctx s hs.1 (fun hnot => absurd hp hnot) hpads h) fun _ _ _ _ hb h₁ => ?_
    refine Move.bind (h₁.move (stmts_spread ctx ss hs.2 hp h₁.pads h₁.beside)) fun _ _ _ _ hbs h₂ => ?_
    exact h₂.pure (.cons hb hbs)

theorem routine_spreads (ctx : Context) : (r : Routine Unit) → r.Plain → ∀ {p : List Bool}
    {scopes scopes' : List Scope} {w w' : Walk}, Pads p scopes scopes' → Beside scopes scopes' w w' →
      Stay scopes scopes' (Routine.Spread p) (routine ctx r w) (routine ctx r.nested w')
  | .mk name params body returnType, hr, p, scopes, scopes', w, w', hpads, h => by
    simp only [Routine.nested, routine]
    have hpads₁ := hpads.shared (lookup_paramScope params) (declares_paramScope fun t ht => (hr.1 t ht).2)
    have hbody := h.inScope (paramScope params) fun _ _ h₁ =>
      (stmts_spread ctx body hr.2 (shared_cons p) hpads₁ h₁).outside
    exact Stay.bind hbody fun _ _ _ _ hbody' h₂ => h₂.pure (.mk name params returnType hbody')

theorem routines_spread (ctx : Context) : (rs : List (Routine Unit)) → Routine.PlainAll rs → ∀ {p : List Bool}
    {scopes scopes' : List Scope} {w w' : Walk}, Pads p scopes scopes' → Beside scopes scopes' w w' →
      Stay scopes scopes' (Routine.SpreadAll p) (routines ctx rs w) (routines ctx (Routine.nestedAll rs) w')
  | [], _, p, scopes, scopes', w, w', _, h => h.pure .nil
  | r :: rs, hr, p, scopes, scopes', w, w', hpads, h => by
    have hkind : methodBody r.nested = methodBody r := by
      cases r
      rfl
    simp only [Routine.nestedAll, routines, hkind]
    refine Stay.bind (routine_spreads { ctx with body := methodBody r } r hr.1 hpads h) fun _ _ _ _ hr' h₁ => ?_
    refine Stay.bind (routines_spread ctx rs hr.2 hpads h₁) fun _ _ _ _ hrs h₂ => h₂.pure (.cons hr' hrs)

end

end Statements

/-! ## Programs -/

theorem boundName?_nested {β : Type} (s : Stmt β) : boundName? s.nested = boundName? s := by
  cases s with
  | define r => simp only [Stmt.nested, boundName?, Routine.name_nested]
  | branch condition whenTrue whenFalse => cases whenFalse <;> rfl
  | _ => rfl

theorem topLevelNames_nested {β : Type} (ss : List (Stmt β)) :
    topLevelNames (Stmt.nestedAll ss) = topLevelNames ss := by
  induction ss with
  | nil => rfl
  | cons s ss ih =>
    rw [Stmt.nestedAll, topLevelNames, List.filterMap_cons, boundName?_nested, topLevelNames, List.filterMap_cons]
    rw [topLevelNames, topLevelNames] at ih
    rw [ih]

/-- **Nesting changes the distances alone.**  A program that is bound without a report is so with every `else if` in
a block of its own, and the tree is that of the program, spread past the inserted blocks. -/
theorem program_nested {known : List String} {statements : List (Stmt Unit)} {bound : List (Stmt Distance)}
    (hp : Stmt.PlainAll statements) (h : program known statements = ⟨.ok bound, []⟩) :
    ∃ bound', program known (Stmt.nestedAll statements) = ⟨.ok bound', []⟩ ∧ Stmt.SpreadAll [] bound bound' := by
  rw [program_eq_ok_iff hp] at h
  have hglobals : globalNames known (Stmt.nestedAll statements) = globalNames known statements := by
    rw [globalNames, globalNames, topLevelNames_nested]
  have hpads : Pads [] [] [] := ⟨.nil, List.forall_mem_nil _, fun _ h => by cases h⟩
  have hstart : Beside [] [] ⟨[], []⟩ ⟨[], []⟩ := ⟨rfl, rfl, rfl⟩
  have hwalk := stmts_spread (.top (globalNames known statements)) statements hp shared_nil hpads hstart
  rw [h] at hwalk
  unfold program
  rw [hglobals]
  cases hnested : stmts (.top (globalNames known statements)) (Stmt.nestedAll statements) ⟨[], []⟩ with
  | ok bound' w' =>
    rw [hnested] at hwalk
    obtain ⟨hspread, hmoves⟩ := hwalk
    have hreports : w'.reports = [] := hmoves.reports
    refine ⟨bound', ?_, hspread⟩
    simp only [hreports]
  | error e w' =>
    rw [hnested] at hwalk
    exact absurd hwalk id

end Binding
end Offside
