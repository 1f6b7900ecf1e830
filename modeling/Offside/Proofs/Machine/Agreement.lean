import Offside.Proofs.Machine.Evaluation

/-!
# Agreement with the visits

A tour of code that fits comes to no node with which the machine does not agree: the chain of the current frame is as
long as scopes were open at the visit of the node, and the node finds what its distance was counted for.  This
carries over to whole programs, whichever way they end.

* `Toured.Sound.agreesAt_expression`, `Toured.Sound.agreesAt_statement` — a sound tour agrees with what fits;
* `Tour.faithful_depth`, `Tour.faithful_program` — tours at every depth, and of whole programs;
* `Toured.interpret_proper` — how a whole program ends.
-/

set_option autoImplicit false

namespace Offside

open Binding (Visit Path Node Scope Distance declared ExprFits StmtFits StmtsFit)

/-! ## Agreement at a node -/

namespace Toured

variable {V : List Visit} {t : Toured} {path : Path} {scopes : List Scope}

theorem Sound.agreesAt {node : Node} (ht : t.Sound V) (hmir : t.machine.frames.Mirrors t.machine.current scopes)
    (hseen : ⟨path, node, scopes.length⟩ ∈ V) (hfinds : t.machine.Finds scopes.length node) :
    t.machine.AgreesAt V path node := by
  obtain ⟨top, htop, hnone⟩ := ht.top
  exact ⟨_, hseen, rfl, rfl, Frames.ancestor?_of_mirrors hmir ht.top_lt,
    Frames.ancestor?_succ_of_mirrors hmir htop hnone, hfinds⟩

theorem Sound.agreesAt_expression {e : Expr Distance} (ht : t.Sound V)
    (hmir : t.machine.frames.Mirrors t.machine.current scopes) (h : ExprFits V path scopes e) :
    t.machine.AgreesAt V path (.expression e) := by
  refine ht.agreesAt hmir h.seen ?_
  cases e with
  | name token site =>
    cases site with
    | none => trivial
    | some d =>
      obtain ⟨v, hv, -⟩ := ht.getAt hmir (h.2 d rfl)
      exact ⟨v, hv⟩
  | thisRef keyword site =>
    obtain ⟨-, hthis, d, rfl, hready⟩ := h
    obtain ⟨v, hv, -⟩ := ht.getAt hmir hready
    exact ⟨v, hthis ▸ hv⟩
  | superRef keyword method site =>
    obtain ⟨-, d, rfl, hsuper, hthis⟩ := h
    obtain ⟨parent, hparent, -, hclass⟩ := ht.getAt hmir hsuper
    obtain ⟨this, hgot, -, hobject⟩ := ht.getAt hmir hthis
    obtain ⟨c, rfl⟩ := hclass.super rfl
    obtain ⟨id, c', rfl⟩ := hobject.this rfl
    exact ⟨d + 1, rfl, Nat.le_add_left 1 d, ⟨c, hparent⟩, id, c', hgot⟩
  | _ => trivial

theorem Sound.agreesAt_statement {s : Stmt Distance} (ht : t.Sound V)
    (hmir : t.machine.frames.Mirrors t.machine.current scopes) (h : StmtFits V path scopes s) :
    t.machine.AgreesAt V path (.statement s) := by
  refine ht.agreesAt hmir h.seen ?_
  cases s with
  | assign name value site =>
    cases site with
    | none => trivial
    | some d =>
      obtain ⟨-, -, hd, -⟩ := h
      obtain ⟨place, hplace⟩ := Frames.exists_ancestor? hmir ht.top_lt hd
      refine ⟨place, hplace, fun he => ?_⟩
      rw [he, Frames.ancestor?_of_mirrors hmir ht.top_lt] at hplace
      exact (Option.some.inj hplace).symm
  | _ => trivial

end Toured

/-! ## Tours at every depth -/

namespace Tour

/-- **Tours of what fits.**  At every depth a tour does what the run does, and every node that it comes to agrees with
its visit. -/
theorem faithful_depth (V : List Visit) (limits : Limits) (depth : Nat) :
    Evaluates V (evaluate limits depth) (Run.evaluate limits depth) ∧
      Executes V (execute limits depth) (Run.execute limits depth) := by
  induction depth with
  | zero =>
    have hoverflow : Fault.overflow.Expected := trivial
    constructor
    · intro t path scopes e ht hmir h
      exact .arrive ht (ht.agreesAt_expression hmir h) fun t' ht' _ => faithful_throw ht'.sound hoverflow
    · intro t path scopes s ht hmir h
      exact .arrive ht (ht.agreesAt_statement hmir h) fun t' ht' _ => faithful_throw ht'.sound hoverflow
  | succ depth ih =>
    obtain ⟨heval, hexec⟩ := ih
    constructor
    · intro t path scopes e ht hmir h
      refine .arrive ht (ht.agreesAt_expression hmir h) fun t' ht' _ => ?_
      exact faithful_evaluateStep heval hexec t' path scopes e ht'.sound (ht'.mirrors hmir) h
    · intro t path scopes s ht hmir h
      refine .arrive ht (ht.agreesAt_statement hmir h) fun t' ht' _ => ?_
      have hstep := faithful_executeStep limits heval hexec t' path scopes s ht'.sound (ht'.mirrors hmir) h
      exact hstep.mono fun _ _ _ ⟨hflow, hpassed⟩ => ⟨hflow, ht'.current ▸ hpassed⟩

theorem declared_nil (s : Stmt Distance) : declared s [] = [] := by
  unfold declared
  split <;> rfl

/-- A program that fits no open scope at all is toured as it is run. -/
theorem faithful_program {V : List Visit} (limits : Limits) {t : Toured} {path : Path} {i : Nat}
    (ss : List (Stmt Distance)) (ht : t.Sound V) (hcurrent : t.machine.current = Machine.globalFrame)
    (h : StmtsFit V path i [] ss) :
    Faithful V t (program limits path i ss) (Run.program limits ss) fun _ _ => True := by
  induction ss generalizing t i with
  | nil => exact .pure ht trivial
  | cons s ss ih =>
    obtain ⟨hs, hss⟩ := h
    rw [declared_nil] at hss
    have hexec := (faithful_depth V limits limits.nesting).2
    refine .bind (hexec t _ [] s ht hcurrent hs) fun _ t₁ h₁ _ => ?_
    exact ih h₁.sound (h₁.current.trans hcurrent) hss

end Tour

/-! ## Whole programs -/

/-- How a program may end after a tour: with the machine sound and back at the global frame; with reports of errors
of the program alone; and with no other fault than a loop that exceeds its bound. -/
structure Toured.Proper (V : List Visit) (t : Toured) (ending : Machine.Ending) : Prop where
  sound : Toured.Sound V { t with machine := ending.machine }
  current : ending.machine.current = Machine.globalFrame
  reports : ∀ r ∈ ending.reports, r.stage = .runtime
  escaped : ending.escaped = none ∨ ending.escaped = some .exhausted

theorem Toured.interpret_proper {V : List Visit} (limits : Limits) {t : Toured} {path : Path} {i : Nat}
    {ss : List (Stmt Distance)} (ht : t.Sound V) (hcurrent : t.machine.current = Machine.globalFrame)
    (h : StmtsFit V path i [] ss) :
    (Tour.toured (Tour.program limits path i ss t)).Proper V (t.machine.interpret limits ss) := by
  have hfaithful := Tour.faithful_program limits ss ht hcurrent h
  have hsame := hfaithful.same
  unfold Machine.interpret
  cases htour : Tour.program limits path i ss t with
  | ok _ t' =>
    obtain ⟨hl, -⟩ := hfaithful.ends.value_of_ok htour
    rw [htour] at hsame
    rw [← hsame]
    exact ⟨hl.sound, hl.current.trans hcurrent, fun _ hr => (nomatch hr), .inl rfl⟩
  | error fault t' =>
    obtain ⟨hl, hexpected⟩ := hfaithful.ends.fault_of_error htour
    have hback := hl.current.trans hcurrent
    rw [htour] at hsame
    rw [← hsame]
    cases fault with
    | error line problem =>
      exact ⟨hl.sound, hback, fun r hr => by rw [List.mem_singleton.1 hr]; rfl, .inl rfl⟩
    | overflow =>
      exact ⟨hl.sound.of_eq rfl rfl rfl, rfl, fun r hr => by rw [List.mem_singleton.1 hr]; rfl, .inl rfl⟩
    | exhausted => exact ⟨hl.sound, hback, fun _ hr => (nomatch hr), .inr rfl⟩
    | _ => exact absurd hexpected id

end Offside
