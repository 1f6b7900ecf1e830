import Offside.Proofs.Machine.Inspection

/-!
# The names that a run has bound

The statements of a program are executed one behind the other in the global frame.  A statement that ends with an
error has not bound its name, so behind a program, however it ends, the names that may be bound globally from then on
are those that are bound, and those that functions and methods may bind from inside.

* `Run.error_of_defineClass` — declaring a class goes wrong over its superclass or not at all;
* `Run.ends_execute_outside` — a statement in the global frame, which binds its name or leaves it as it was;
* `Run.ends_program`, `Machine.interpret_declares` — whole programs.
-/

set_option autoImplicit false

namespace Offside

open Binding (Distance StmtWithin declaredName?)
open Step (Ends)

/-! ## Names that are bound -/

theorem Bindings.mem_names_iff {α : Type} {bindings : Bindings α} {name : String} :
    name ∈ bindings.names ↔ (bindings.get? name).isSome = true := by
  induction bindings with
  | nil => simp [names, get?]
  | cons entry more ih =>
    by_cases h : entry.1 = name
    · simp [names, get?, h]
    · have : name ≠ entry.1 := fun he => h he.symm
      rw [get?, if_neg h, ← ih]
      simp [names, this]

theorem Machine.globals_of_frame {m : Machine} {frame : Frame Value}
    (h : m.frames[globalFrame]? = some frame) : m.globals = frame.bindings := by
  rw [globals, Frames.bindingsOf, h]

/-- Global names are never lost. -/
theorem Machine.names_subset_of_grows {m m' : Machine} {top : Frame Value}
    (htop : m.frames[globalFrame]? = some top) (h : m.frames.Grows m'.frames) :
    m.globals.names ⊆ m'.globals.names := by
  obtain ⟨top', htop', -, hkept⟩ := h globalFrame top htop
  intro name hname
  rw [globals_of_frame htop, Bindings.mem_names_iff] at hname
  rw [globals_of_frame htop', Bindings.mem_names_iff]
  exact hkept name hname

/-- A name that the global frame binds. -/
theorem Machine.mem_names_iff_binds {m : Machine} {top : Frame Value} (htop : m.frames[globalFrame]? = some top)
    {name : String} : name ∈ m.globals.names ↔ m.frames.Binds globalFrame name := by
  rw [globals_of_frame htop, Bindings.mem_names_iff]
  constructor
  · exact fun hname => ⟨top, htop, hname⟩
  · rintro ⟨top', htop', hname⟩
    rw [htop] at htop'
    obtain rfl := Option.some.inj htop'
    exact hname

namespace Run

variable {G : List String} {L : Ledger} {m m' : Machine}

/-! ## Declarations that go wrong -/

theorem exists_ok_makeMethods (frame : FrameId) (rs : List (Routine Distance)) (table : Bindings Closure)
    (m : Machine) : ∃ table' m', makeMethods frame rs table m = .ok table' m' := by
  induction rs generalizing table m with
  | nil => exact ⟨table, m, rfl⟩
  | cons r rs ih => exact ih _ _

/-- Behind its superclass nothing of a class declaration goes wrong. -/
theorem error_of_defineClass {evaluate : Expr Distance → Run Value} {name : Token}
    {parent : Option (Token × Distance)} {methods : List (Routine Distance)} {e : Fault}
    (h : defineClass evaluate name parent methods m = .error e m') : superclassOf parent evaluate m = .error e m' := by
  rcases Step.error_of_bind h with h | ⟨found, m₁, -, h⟩
  · exact h
  -- behind the superclass, all steps succeed
  cases found with
  | none =>
    obtain ⟨table, m₂, hmade⟩ := exists_ok_makeMethods m₁.current methods []
      { m₁ with frames := m₁.frames.define m₁.current name.lexeme .null }
    cases (Step.bind_of_ok hmade).symm.trans h
  | some c =>
    let named := m₁.frames.define m₁.current name.lexeme .null
    obtain ⟨table, m₂, hmade⟩ := exists_ok_makeMethods named.size methods []
      { m₁ with frames := (named.add (some m₁.current)).define named.size "super" (.classValue c) }
    cases (Step.bind_of_ok hmade).symm.trans h

/-- A statement that ends with a fault has bound no name of its own. -/
theorem fault_of_executeStep {limits : Limits} {evaluate : Expr Distance → Run Value}
    {execute : Stmt Distance → Run Flow} (heval : EvaluatesTidily G evaluate evaluate) {s : Stmt Distance} {e : Fault}
    (hm : m.Tidy G L) (hdeclares : (declaredName? s).isSome = true)
    (h : executeStep limits evaluate execute s m = .error e m') : ∃ L', m.Becomes G L L' m' := by
  cases s with
  | define r => cases h
  | classDef name parent methods =>
    rcases Step.error_of_bind h with hclass | ⟨_, _, -, hrest⟩
    · exact (keeps_superclassOf heval parent hm).ends.fault_of_error (error_of_defineClass hclass)
    · cases hrest
  | assign name value site =>
    cases site with
    | some d => cases hdeclares
    | none =>
      rcases Step.error_of_bind h with hvalue | ⟨_, _, -, hrest⟩
      · exact (keeps_evaluate? heval value hm).ends.fault_of_error hvalue
      · cases hrest
  | _ => cases hdeclares

/-! ## Statements outside all scopes -/

/-- Outside all scopes a statement binds its own name, if it has one, or ends with a fault and leaves it as it was.
Other names that are bound globally are among those that functions and methods may bind. -/
theorem ends_execute_outside (limits : Limits) (depth : Nat) {s : Stmt Distance} (hm : m.Tidy G L)
    (hcurrent : m.current = Machine.globalFrame) (h : StmtWithin (G ++ (declaredName? s).toList) 0 s) :
    Ends (execute limits depth s m)
      (fun _ m' => ∃ L', m.Becomes (G ++ (declaredName? s).toList) L L' m' ∧
        ∀ name ∈ declaredName? s, m'.frames.Binds Machine.globalFrame name)
      (fun _ m' => ∃ L', m.Becomes G L L' m') := by
  have hkeeps := keeps_execute _ limits depth L m 0 s (hm.mono (List.subset_append_left _ _)) hcurrent h
  cases hrun : execute limits depth s m with
  | ok flow m' =>
    obtain ⟨L', hb, -, hbinds⟩ := hkeeps.ends.value_of_ok hrun
    rw [hcurrent] at hbinds
    exact ⟨L', hb, hbinds⟩
  | error e m' =>
    cases hname : declaredName? s with
    | none =>
      obtain ⟨L', hb⟩ := hkeeps.ends.fault_of_error hrun
      rw [hname, Option.toList_none, List.append_nil] at hb
      exact ⟨L', hb⟩
    | some name =>
      cases depth with
      | zero =>
        cases hrun
        exact ⟨L, .refl hm⟩
      | succ depth => exact fault_of_executeStep (keeps_evaluate G limits depth) hm (by rw [hname]; rfl) hrun

/-- Behind a program, however it ends, only names are bound globally from then on that are bound already, or that
functions and methods may bind. -/
theorem ends_program (limits : Limits) {ss : List (Stmt Distance)} (hm : m.Tidy G L)
    (hcurrent : m.current = Machine.globalFrame)
    (h : ∀ s ∈ ss, StmtWithin (G ++ (declaredName? s).toList) 0 s) :
    Ends (program limits ss m) (fun _ m' => ∃ L', m.Becomes (G ++ m'.globals.names) L L' m')
      (fun _ m' => ∃ L', m.Becomes (G ++ m'.globals.names) L L' m') := by
  induction ss generalizing G L m with
  | nil => exact ⟨L, (Machine.Becomes.refl hm).mono (List.subset_append_left _ _)⟩
  | cons s ss ih =>
    obtain ⟨hs, hss⟩ := List.forall_mem_cons.1 h
    have hfirst : Ends (execute limits limits.nesting s m) _
        fun _ m' => ∃ L', m.Becomes (G ++ m'.globals.names) L L' m' :=
      (ends_execute_outside limits limits.nesting hm hcurrent hs).mono (fun _ _ hvalue => hvalue)
        fun _ _ ⟨L', hb⟩ => ⟨L', hb.mono (List.subset_append_left _ _)⟩
    refine hfirst.bind fun _ m₁ ⟨L₁, h₁, hbinds⟩ => ?_
    have hrest := ih h₁.tidy (h₁.current.trans hcurrent) fun t ht => (hss t ht).mono
      (List.append_subset.2 ⟨by simp, List.subset_append_right _ _⟩) 0 t
    -- the name that is bound now is one of those that are bound behind the program
    have hbecomes : ∀ {L' : Ledger} {m' : Machine},
        m₁.Becomes (G ++ (declaredName? s).toList ++ m'.globals.names) L₁ L' m' →
          m.Becomes (G ++ m'.globals.names) L L' m' := by
      intro L' m' hb
      obtain ⟨top, htop, -⟩ := hb.tidy.top
      have hname : (declaredName? s).toList ⊆ m'.globals.names := fun name hname =>
        (Machine.mem_names_iff_binds htop).2 ((hbinds name (Option.mem_toList.1 hname)).grow hb.grows)
      have hnames : G ++ (declaredName? s).toList ++ m'.globals.names ⊆ G ++ m'.globals.names := by
        refine List.append_subset.2 ⟨List.append_subset.2 ⟨?_, ?_⟩, List.subset_append_right _ _⟩
        · exact List.subset_append_left _ _
        · exact List.subset_append_of_subset_right _ hname
      exact ⟨hb.tidy.mono hnames, h₁.more.trans hb.more, h₁.grows.trans hb.grows, hb.current.trans h₁.current⟩
    exact hrest.mono (fun _ _ ⟨L', hb⟩ => ⟨L', hbecomes hb⟩) fun _ _ ⟨L', hb⟩ => ⟨L', hbecomes hb⟩

end Run

/-- However a program ends, it leaves a machine at the global frame that may bind globally what it has bound, and what
functions and methods may bind. -/
theorem Machine.interpret_declares {G : List String} {L : Ledger} {m : Machine} (limits : Limits)
    {ss : List (Stmt Distance)} (hm : m.Tidy G L) (hcurrent : m.current = globalFrame)
    (h : ∀ s ∈ ss, StmtWithin (G ++ (declaredName? s).toList) 0 s) :
    ∃ L', m.Becomes (G ++ (m.interpret limits ss).machine.globals.names) L L' (m.interpret limits ss).machine :=
  interpret_of_ends (P := fun m' => ∃ L', m.Becomes (G ++ m'.globals.names) L L' m')
    (Run.ends_program limits hm hcurrent h) fun _ ⟨L', hb⟩ => ⟨L', hb.atGlobalFrame hcurrent⟩

end Offside
