import Offside.Proofs.Machine.Equivariance
import Offside.Proofs.Session.Pieces

/-!
# Functions declared in another order

The functions that a program declares find each other through the global frame, and only when they are called.  So
two declarations that follow each other may be swapped.  The functions change their serial numbers, and their names
the order in which they are bound; all else stays as it is.

* `Machine.Tidy.renumbered` — no serial number matters that the machine has not given yet;
* `Machine.Tidy.interpret_swap` — a bound program with two declarations swapped;
* `Session.runTree_swap` — a program of a session with two declarations swapped.
-/

set_option autoImplicit false

namespace Offside

open Binding (Distance StmtsWithin)

variable {σ : Equiv.Perm Nat}

/-! ## Machines beside themselves -/

section Tidy

variable {G : List String} {L : Ledger} {m : Machine}

theorem Closure.renumber_of_fixed {f : Closure} (h : σ f.serial = f.serial) : f.renumber σ = f := by
  rw [renumber, h]

namespace Machine.Tidy

theorem lt_of_cell (h : m.Tidy G L) {serial : Nat} {cell : Ledger.Cell} (hcell : L.cells[serial]? = some cell) :
    serial < m.nextSerial :=
  h.serials ▸ (List.getElem?_eq_some_iff.1 hcell).1

/-- A class was made before those that inherit from it, and behind its methods. -/
theorem renumbered_class (h : m.Tidy G L) (hσ : ∀ serial < m.nextSerial, σ serial = serial) {serial : Nat} {c : Class}
    (hc : L.cells[serial]? = some (.classDef c)) : c.Renumbered σ c := by
  induction serial using Nat.strongRecOn generalizing c with
  | ind serial ih =>
    have hinherits : L.Inherits serial c := h.cells serial _ hc
    refine .cons ⟨?_, rfl, fun name => ?_⟩ ?_
    · rw [hinherits.made, hσ serial (h.lt_of_cell hc)]
    · cases hf : c.own.methods.get? name with
      | none => rfl
      | some f =>
        obtain ⟨hmethod, -⟩ := hinherits.methods name f hf
        rw [Option.map_some, Closure.renumber_of_fixed (hσ _ (h.lt_of_cell hmethod))]
    · rcases hinherits.superclass with hnone | ⟨parent, hparent, hlt, hancestors⟩
      · rw [hnone]
        exact .nil
      · rw [hancestors]
        exact ih parent.own.serial hlt hparent

theorem renumbered_value (h : m.Tidy G L) (hσ : ∀ serial < m.nextSerial, σ serial = serial) {v : Value}
    (hv : v.In L) : v.Renumbered σ v := by
  cases v with
  | null | boolean | number | text => exact .of_plain trivial
  | function f =>
    have hlt : f.serial < m.nextSerial := hv.elim h.lt_of_cell h.lt_of_cell
    have hself := Value.Renumbered.function (σ := σ) f
    rwa [Closure.renumber_of_fixed (hσ _ hlt)] at hself
  | native serial f =>
    have hself := Value.Renumbered.native (σ := σ) serial f
    rwa [hσ _ (h.lt_of_cell hv)] at hself
  | classValue c => exact .classValue (h.renumbered_class hσ hv)
  | object id c => exact .object id (h.renumbered_class hσ (h.classes id c hv))
  | foreign serial =>
    have hself := Value.Renumbered.foreign (σ := σ) serial
    rwa [hσ _ (h.lt_of_cell hv)] at hself

theorem renumbered_bindings (h : m.Tidy G L) (hσ : ∀ serial < m.nextSerial, σ serial = serial)
    {bindings : Bindings Value} (hbindings : ∀ name v, bindings.get? name = some v → v.In L) :
    bindings.Renumbered σ bindings := by
  refine ⟨.refl _, fun name => ?_⟩
  cases hv : bindings.get? name with
  | none => exact .none
  | some v => exact .some (h.renumbered_value hσ (hbindings name v hv))

/-- **Serial numbers that were not given do not matter**, so that a machine that skips some of them is the same
when these are permuted. -/
theorem renumbered (h : m.Tidy G L) (hσ : ∀ serial < m.nextSerial, σ serial = serial) {next : Nat}
    (hnext : ∀ serial, next ≤ serial → σ serial = serial) :
    Machine.Renumbered σ { m with nextSerial := next } { m with nextSerial := next } where
  frames := rfl
  frame id := by
    cases hframe : m.frames[id]? with
    | none => exact .none
    | some frame => exact .some ⟨rfl, h.renumbered_bindings hσ fun name v hv => (h.bound id frame name v hframe hv).1⟩
  objects := rfl
  fields id := by
    cases hfields : m.fields[id]? with
    | none => exact .none
    | some bindings => exact .some (h.renumbered_bindings hσ (h.fields id bindings · · hfields))
  nextSerial := rfl
  fixed := hnext
  current := rfl
  output := rfl
  time := rfl

end Machine.Tidy
end Tidy

/-! ## Declarations in the other order -/

section Declaring

variable {b b' : Bindings Value} {m m' : Machine} {x y : String} {v w : Value}

theorem Bindings.names_put_comm (hne : x ≠ y) (v w : Value) (b : Bindings Value) :
    ((b.put y w).put x v).names.Perm ((b.put x v).put y w).names := by
  by_cases hx : x ∈ b.names <;> by_cases hy : y ∈ b.names <;> simp only [names_put, hx, hy, hne, hne.symm, if_true,
    if_false, List.mem_append, List.mem_singleton, or_self, or_false]
  · exact .refl _
  · exact .refl _
  · exact .refl _
  · rw [List.append_assoc, List.append_assoc]
    exact (List.Perm.swap x y []).append_left b.names

theorem Bindings.get?_put_comm (hne : x ≠ y) (v w : Value) (b : Bindings Value) (name : String) :
    ((b.put y w).put x v).get? name = ((b.put x v).put y w).get? name := by
  by_cases hx : x = name
  · subst hx
    rw [get?_put_self, get?_put_of_ne hne.symm, get?_put_self]
  · rw [get?_put_of_ne hx]
    by_cases hy : y = name
    · subst hy
      rw [get?_put_self, get?_put_self]
    · rw [get?_put_of_ne hy, get?_put_of_ne hy, get?_put_of_ne hx]

theorem Bindings.Renumbered.put_comm (hne : x ≠ y) (h : b.Renumbered σ ((b'.put x v).put y w)) :
    b.Renumbered σ ((b'.put y w).put x v) := by
  refine ⟨(Bindings.names_put_comm hne v w b').trans h.names, fun name => ?_⟩
  rw [Bindings.get?_put_comm hne]
  exact h.values name

/-- Two names may be bound in either order. -/
theorem Machine.Renumbered.define_comm {id : FrameId} (hne : x ≠ y)
    (h : m.Renumbered σ { m' with frames := (m'.frames.define id x v).define id y w }) :
    m.Renumbered σ { m' with frames := (m'.frames.define id y w).define id x v } := by
  refine { h with frames := ?_, frame := fun other => ?_ }
  · rw [← h.frames]
    simp only [Frames.size_define]
  · have hframe := h.frame other
    simp only [Frames.define, Array.getElem?_modify] at hframe ⊢
    by_cases hid : id = other
    · simp only [hid, if_true, Option.map_map] at hframe ⊢
      cases hf' : m'.frames[other]? with
      | none =>
        rw [hf'] at hframe
        exact hframe
      | some frame' =>
        rw [hf'] at hframe
        rcases rel_cases hframe with ⟨-, hnone⟩ | ⟨frame, both, hf, hboth, hrenumbered⟩
        · cases hnone
        · cases hboth
          rw [hf]
          exact .some ⟨hrenumbered.enclosing, hrenumbered.bindings.put_comm hne⟩
    · simp only [hid, if_false] at hframe ⊢
      exact hframe

/-- The machine behind the declaration of a function. -/
def Machine.declare (m : Machine) (r : Routine Distance) : Machine :=
  { m with
    frames := m.frames.define m.current r.name.lexeme (.function ⟨m.nextSerial, r, m.current, false⟩)
    nextSerial := m.nextSerial + 1 }

theorem Run.program_of_no_nesting {limits : Limits} (hnesting : limits.nesting = 0) (s : Stmt Distance)
    (ss : List (Stmt Distance)) (m : Machine) : Run.program limits (s :: ss) m = .error .overflow m := by
  rw [Run.program, hnesting]
  rfl

theorem Machine.interpret_define {limits : Limits} {depth : Nat} (hnesting : limits.nesting = depth + 1)
    (r : Routine Distance) (ss : List (Stmt Distance)) (m : Machine) :
    m.interpret limits (.define r :: ss) = (m.declare r).interpret limits ss := by
  have hrun : Run.program limits [.define r] m = .ok () (m.declare r) := by
    rw [Run.program, hnesting]
    rfl
  exact interpret_append hrun

theorem Machine.Tidy.renumbered_declare {G : List String} {L : Ledger} (h : m.Tidy G L) {f g : Routine Distance}
    (hne : f.name.lexeme ≠ g.name.lexeme) :
    Machine.Renumbered (Equiv.swap m.nextSerial (m.nextSerial + 1)) ((m.declare f).declare g)
      ((m.declare g).declare f) := by
  have hbelow : ∀ serial < m.nextSerial, Equiv.swap m.nextSerial (m.nextSerial + 1) serial = serial :=
    fun serial hlt => Equiv.swap_apply_of_ne_of_ne (by omega) (by omega)
  have habove : ∀ serial, m.nextSerial + 2 ≤ serial → Equiv.swap m.nextSerial (m.nextSerial + 1) serial = serial :=
    fun serial hle => Equiv.swap_apply_of_ne_of_ne (by omega) (by omega)
  have hf := Value.Renumbered.function (σ := Equiv.swap m.nextSerial (m.nextSerial + 1))
    ⟨m.nextSerial, f, m.current, false⟩
  have hg := Value.Renumbered.function (σ := Equiv.swap m.nextSerial (m.nextSerial + 1))
    ⟨m.nextSerial + 1, g, m.current, false⟩
  rw [Closure.renumber, Equiv.swap_apply_left] at hf
  rw [Closure.renumber, Equiv.swap_apply_right] at hg
  have hboth := ((h.renumbered hbelow habove).define m.current f.name.lexeme hf).define m.current g.name.lexeme hg
  exact hboth.define_comm hne

theorem Machine.Tidy.interpret_self {G : List String} {L : Ledger} (hm : m.Tidy G L)
    (hcurrent : m.current = globalFrame) {ss : List (Stmt Distance)} (hwithin : StmtsWithin G 0 ss) (limits : Limits) :
    (m.interpret limits ss).Renumbered (.refl Nat) (m.interpret limits ss) := by
  obtain ⟨L', hb⟩ := interpret_tidy limits hm hcurrent hwithin
  exact ⟨hb.tidy.renumbered (fun _ _ => rfl) fun _ _ => rfl, rfl, rfl⟩

/-- **Two declarations of a bound program may be swapped.** -/
theorem Machine.Tidy.interpret_swap {G : List String} {L : Ledger} (hm : m.Tidy G L) (hcurrent : m.current = globalFrame)
    {p q : List (Stmt Distance)} {f g : Routine Distance}
    (hwithin : StmtsWithin G 0 (p ++ .define f :: .define g :: q)) (hne : f.name.lexeme ≠ g.name.lexeme)
    (limits : Limits) :
    ∃ σ, (m.interpret limits (p ++ .define f :: .define g :: q)).Renumbered σ
      (m.interpret limits (p ++ .define g :: .define f :: q)) := by
  have hself := hm.interpret_self hcurrent hwithin limits
  cases hp : Run.program limits p m with
  | error fault after =>
    -- the declarations are not reached
    have hsame : m.interpret limits (p ++ .define f :: .define g :: q) =
        m.interpret limits (p ++ .define g :: .define f :: q) := by
      rw [interpret, interpret, Run.program_append_of_error hp, Run.program_append_of_error hp]
    refine ⟨.refl Nat, ?_⟩
    rw [← hsame]
    exact hself
  | ok _ m₁ =>
    rw [interpret_append hp] at hself ⊢
    rw [interpret_append hp]
    cases hnesting : limits.nesting with
    | zero =>
      -- no statement is executed at all
      have hsame : m₁.interpret limits (.define f :: .define g :: q) =
          m₁.interpret limits (.define g :: .define f :: q) := by
        rw [interpret, interpret, Run.program_of_no_nesting hnesting, Run.program_of_no_nesting hnesting]
      refine ⟨.refl Nat, ?_⟩
      rw [← hsame]
      exact hself
    | succ depth =>
      obtain ⟨L₁, hb, -⟩ :=
        (Run.keeps_inspectedProgram .overflow limits p hm hcurrent hwithin.of_append.1).ends.value_of_ok hp
      simp only [interpret_define hnesting]
      exact ⟨_, (hb.tidy.renumbered_declare hne).interpret limits q⟩

end Declaring

/-! ## Programs of a session -/

namespace Session

/-- **Functions may be declared in either order.**  Take a session that has come about, a text that can run in it,
and two functions of different names that are declared one behind the other, outside all scopes.  Let them be
swapped, each with its tokens and so with its lines.  Then

* all names are bound without a report;
* the program prints the same, leaves the same log and escapes with the same fault, if any;
* the same names are global, in another order, and bound to the same values up to serial numbers;
* and so are all frames and all fields. -/
theorem runTree_swap {s : Session} {programs : List (List (Stmt Unit))} {source : String}
    {p q : List (Stmt Unit)} {f g : Routine Unit} (limits : Limits) (stream : Token.Stream) (h : HasRun s programs)
    (a : Accepted s.machine.globals.names source) (hsplit : a.statements = p ++ .define f :: .define g :: q)
    (hne : f.name.lexeme ≠ g.name.lexeme) :
    let swapped := p ++ .define g :: .define f :: q
    let written := s.run limits source
    let other := s.runTree limits stream swapped
    (∃ bound, Binding.program s.machine.globals.names swapped = ⟨.ok bound, []⟩) ∧
      other.session.machine.output = written.session.machine.output ∧
      other.session.log = written.session.log ∧ other.escaped = written.escaped ∧
      ∃ σ : Equiv.Perm Nat,
        Bindings.Renumbered σ written.session.machine.globals other.session.machine.globals ∧
          written.session.machine.Renumbered σ other.session.machine := by
  obtain ⟨L, hs⟩ := h.orderly
  have hplain := Program.plain_of_parsed a.parsed
  obtain ⟨htidy, hwithin⟩ := hs.ready hplain a.resolved
  have hresolved := a.resolved
  rw [hsplit] at hplain hresolved
  obtain ⟨bound₁, bf, bg, bound₂, hbound, hf, hg, hswapped⟩ := Binding.program_swap hplain hresolved
  have hmem := Binding.plainAll_iff.1 hplain
  obtain ⟨f', rfl, hf'⟩ := Binding.ok_of_define (hmem (.define f) (by simp)) hf
  obtain ⟨g', rfl, hg'⟩ := Binding.ok_of_define (hmem (.define g) (by simp)) hg
  rw [hbound] at hwithin
  have hne' : f'.name.lexeme ≠ g'.name.lexeme := by rwa [hf', hg']
  obtain ⟨σ, hending⟩ := htidy.interpret_swap hs.current hwithin hne' limits
  rw [← hbound] at hending
  intro swapped written other
  obtain ⟨hwritten, hwrittenEnd⟩ := run_of_accepted limits hs.log a
  obtain ⟨hother, hotherEnd⟩ := runTree_of_quiet limits stream hs.log hswapped
  have hmachine : written.session.machine.Renumbered σ other.session.machine := by
    rw [hwritten, hother]
    exact hending.machine
  refine ⟨⟨_, hswapped⟩, hmachine.output, ?_, ?_, σ, hmachine.bindingsOf Machine.globalFrame, hmachine⟩
  · rw [hwritten, hother, hending.reports]
  · rw [hwrittenEnd, hotherEnd, hending.escaped]

/-! ## Two functions that call each other -/

/-- Two functions that a program begins with, and the statements behind them. -/
def leading? : List (Stmt Unit) → Option (Routine Unit × Routine Unit × List (Stmt Unit))
  | .define f :: .define g :: q => some (f, g, q)
  | _ => none

theorem statements_of_leading? {statements q : List (Stmt Unit)} {f g : Routine Unit}
    (h : leading? statements = some (f, g, q)) : statements = .define f :: .define g :: q := by
  unfold leading? at h
  split at h
  · cases h
    rfl
  · cases h

/-- Two functions, each of which calls the other. -/
def mutualText : String :=
  "function f(b):\n return g(b)\nfunction g(b):\n if b:\n  return f\n return f(true)\nprint f(false)"

theorem runTree_swap_mutualText :
    let s := fresh 0
    ∃ (a : Accepted s.machine.globals.names mutualText) (f g : Routine Unit) (q : List (Stmt Unit)),
      a.statements = .define f :: .define g :: q ∧ f.name.lexeme ≠ g.name.lexeme ∧
        (∃ bound, Binding.program s.machine.globals.names (.define g :: .define f :: q) = ⟨.ok bound, []⟩) ∧
        (s.runTree ⟨50, 10⟩ (Token.scan mutualText).stream (.define g :: .define f :: q)).session.machine.output =
          (s.run ⟨50, 10⟩ mutualText).session.machine.output ∧
        (s.run ⟨50, 10⟩ mutualText).session.machine.output = "<fn f>\n" := by
  intro s
  have haccepted : (accepted? s.machine.globals.names mutualText).isSome = true := by decide +kernel
  obtain ⟨a, -⟩ := Option.isSome_iff_exists.1 haccepted
  have hread : a.statements = statementsOf mutualText := by rw [statementsOf, a.parsed]
  have hleading : (leading? (statementsOf mutualText)).any
      (fun t => t.1.name.lexeme != t.2.1.name.lexeme) = true := by decide +kernel
  obtain ⟨⟨f, g, q⟩, hsome, hne⟩ := (Option.any_eq_true _ _).1 hleading
  have hsplit := hread.trans (statements_of_leading? hsome)
  have hne := bne_iff_ne.1 hne
  have hrun : HasRun s [] := .fresh 0
  obtain ⟨hbound, houtput, -⟩ :=
    runTree_swap (p := []) ⟨50, 10⟩ (Token.scan mutualText).stream hrun a hsplit hne
  exact ⟨a, f, g, q, hsplit, hne, hbound, houtput, by decide +kernel⟩

end Session
end Offside
