import Offside.Proofs.Binding.Faults

/-!
# Keeping track of routines and classes

The walk is handed the kind of routine and of class around a place.  A walk may also keep track of them in its
state: it notes what it enters, and puts back what it found when it leaves.  This file writes such a walk down
and shows that it goes where the other one goes, so that at its end the state is again that of the top level.

* `Binding.Tracked`, `Binding.trackStmt` — the walk that keeps track;
* `Binding.trackStmt_mimics` and its companions — it binds and reports as the walk that is told;
* `Binding.program_reports_violations` — what it reports of a program, and how it ends.
-/

set_option autoImplicit false

namespace Offside.Binding

open Step

/-- The state of a walk that keeps track of the routine and of the class around it. -/
structure Tracked where
  walk : Walk
  body : Body
  owner : Owner

/-- A step of such a walk. -/
abbrev Tracker := EStateM Unknown Tracked

namespace Tracker

/-- A step of the walk that is told what surrounds it. -/
def told {α : Type} (globals : List String) (step : Context → Binder α) : Tracker α :=
  fun s =>
    match step ⟨globals, s.body, s.owner⟩ s.walk with
    | .ok a w => .ok a { s with walk := w }
    | .error e w => .error e { s with walk := w }

/-- The kind of the routine around. -/
def currentBody : Tracker Body :=
  fun s => .ok s.body s

/-- The kind of the class around. -/
def currentOwner : Tracker Owner :=
  fun s => .ok s.owner s

/-- Notes the kind of the routine around. -/
def setBody (body : Body) : Tracker Unit :=
  fun s => .ok () { s with body := body }

/-- Notes the kind of the class around. -/
def setOwner (owner : Owner) : Tracker Unit :=
  fun s => .ok () { s with owner := owner }

/-- Opens a scope. -/
def openScope (scope : Scope) : Tracker Unit :=
  fun s => .ok () { s with walk := s.walk.within scope }

/-- Closes the innermost scope. -/
def closeScope : Tracker Unit :=
  fun s => .ok () { s with walk := { s.walk with scopes := s.walk.scopes.tail } }

end Tracker

open Tracker

/-- Binds the superclass of a class; a class that has one opens a scope for it. -/
def trackSuperclass (globals : List String) (name : Token) :
    Option (Token × Unit) → Tracker (Option (Token × Distance))
  | none => return none
  | some (t, _) => do
    told globals fun _ => if t.lexeme == name.lexeme then complain t .inheritsFromItself else pure ()
    setOwner .subclass
    let site ← told globals fun _ => locateVariable t
    openScope [("super", true)]
    return some (t, site)

/-- Closes the scope of a superclass. -/
def closeSuperclass : Option (Token × Unit) → Tracker Unit
  | none => return ()
  | some _ => closeScope

mutual

/-- Binds the names in a statement. -/
def trackStmt (globals : List String) : Stmt Unit → Tracker (Stmt Distance)
  | .block body => do
    openScope []
    let b ← trackStmts globals body
    closeScope
    return .block b
  | .define r => do
    told globals fun _ => declare r.name.lexeme true
    return .define (← trackRoutine globals .function r)
  | .classDef name parent methods => do
    let enclosing ← currentOwner
    setOwner .baseClass
    told globals fun _ => declare name.lexeme true
    let parent' ← trackSuperclass globals name parent
    openScope [("this", true)]
    let methods' ← trackMethods globals methods
    closeScope
    closeSuperclass parent
    setOwner enclosing
    return .classDef name parent' methods'
  | .evaluate e => return .evaluate (← told globals fun ctx => expr ctx e)
  | .branch condition whenTrue none => do
    let c ← told globals fun ctx => expr ctx condition
    let t ← trackStmt globals whenTrue
    return .branch c t none
  | .branch condition whenTrue (some whenFalse) => do
    let c ← told globals fun ctx => expr ctx condition
    let t ← trackStmt globals whenTrue
    let f ← trackStmt globals whenFalse
    return .branch c t (some f)
  | .print e => return .print (← told globals fun ctx => expr ctx e)
  | .giveBack keyword value => do
    told globals fun ctx => checkReturn ctx keyword value.isSome
    return .giveBack keyword (← told globals fun ctx => expr? ctx value)
  | .assign name value _ => told globals fun ctx => assign ctx name value
  | .loop condition body => do
    let c ← told globals fun ctx => expr ctx condition
    let b ← trackStmt globals body
    return .loop c b
  | .unknown => throw .statement

/-- Binds the names in several statements, in order. -/
def trackStmts (globals : List String) : List (Stmt Unit) → Tracker (List (Stmt Distance))
  | [] => return []
  | s :: ss => do
    let first ← trackStmt globals s
    let more ← trackStmts globals ss
    return first :: more

/-- Binds the names in a routine with a body of the given kind. -/
def trackRoutine (globals : List String) (kind : Body) : Routine Unit → Tracker (Routine Distance)
  | .mk name params body returnType => do
    let enclosing ← currentBody
    setBody kind
    openScope (paramScope params)
    let b ← trackStmts globals body
    closeScope
    setBody enclosing
    return .mk name params b returnType

/-- Binds the names in the methods of a class. -/
def trackMethods (globals : List String) : List (Routine Unit) → Tracker (List (Routine Distance))
  | [] => return []
  | r :: rs => do
    let first ← trackRoutine globals (methodBody r) r
    let more ← trackMethods globals rs
    return first :: more

end

/-! ## The walk that is told -/

/-- Where a walk stands, besides its scopes. -/
abbrev Surroundings := Body × Owner

/-- Whenever the one step yields a value, the other one yields it too, with the same scopes and reports; it
leads from some surroundings to others. -/
def Mimics {α : Type} (p : Tracker α) (q : Binder α) (before after : Surroundings) : Prop :=
  ∀ w a w', q w = .ok a w' → p ⟨w, before.1, before.2⟩ = .ok a ⟨w', after.1, after.2⟩

section Steps

variable {α β : Type} {here there next : Surroundings}

theorem Mimics.pure (a : α) : Mimics (pure a) (pure a) here here := by
  intro w b w' h
  cases h
  rfl

theorem Mimics.bind {p : Tracker α} {q : Binder α} {f : α → Tracker β} {g : α → Binder β}
    (hp : Mimics p q here there) (hf : ∀ a, Mimics (f a) (g a) there next) :
    Mimics (p >>= f) (q >>= g) here next := by
  intro w b w' h
  obtain ⟨a, w₁, hq, hg⟩ := ok_of_bind h
  rw [bind_of_ok (hp w a w₁ hq)]
  exact hf a w₁ b w' hg

theorem mimics_told (here : Surroundings) (globals : List String) (step : Context → Binder α) :
    Mimics (told globals step) (step ⟨globals, here.1, here.2⟩) here here := by
  intro w a w' h
  simp only [told, h]

theorem Mimics.after_pure {f : Unit → Tracker α} {q : Binder α} (h : Mimics (f ()) q here there) :
    Mimics (Pure.pure () >>= f) q here there :=
  h

theorem Mimics.after_currentBody {f : Body → Tracker α} {q : Binder α} (h : Mimics (f here.1) q here there) :
    Mimics (currentBody >>= f) q here there :=
  h

theorem Mimics.after_currentOwner {f : Owner → Tracker α} {q : Binder α}
    (h : Mimics (f here.2) q here there) : Mimics (currentOwner >>= f) q here there :=
  h

theorem Mimics.after_setBody {body : Body} {f : Unit → Tracker α} {q : Binder α}
    (h : Mimics (f ()) q (body, here.2) there) : Mimics (setBody body >>= f) q here there :=
  h

theorem Mimics.after_setOwner {owner : Owner} {f : Unit → Tracker α} {q : Binder α}
    (h : Mimics (f ()) q (here.1, owner) there) : Mimics (setOwner owner >>= f) q here there :=
  h

/-- A scope that is opened in front of a step and closed behind it. -/
theorem Mimics.scoped {scope : Scope} {p : Tracker α} {q : Binder α} {f : α → Tracker β} {g : α → Binder β}
    (hp : Mimics p q here there) (hf : ∀ a, Mimics (f a) (g a) there next) :
    Mimics (openScope scope >>= fun _ => p >>= fun a => closeScope >>= fun _ => f a)
      (inScope scope q >>= g) here next := by
  intro w b w' h
  obtain ⟨a, w₁, hin, hg⟩ := ok_of_bind h
  obtain ⟨inner, hq, rfl⟩ := ok_of_inScope hin
  show (p >>= fun a => closeScope >>= fun _ => f a) ⟨w.within scope, here.1, here.2⟩ = _
  rw [bind_of_ok (hp _ a inner hq)]
  exact hf a _ b w' hg

end Steps

section Statements

variable {G : List String}

/-- The superclass of a class leaves its scope open. -/
theorem trackSuperclass_apply {name : Token} {parent : Token × Unit} {parent' : Option (Token × Distance)}
    {w w' : Walk} (body : Body) (owner : Owner) (h : superclass name (some parent) w = .ok parent' w') :
    trackSuperclass G name (some parent) ⟨w, body, owner⟩ =
      .ok parent' ⟨w'.within [("super", true)], body, .subclass⟩ := by
  rw [superclass_some] at h
  obtain ⟨_, w₁, hcompared, h⟩ := ok_of_bind h
  obtain ⟨site, w₂, hsite, h⟩ := ok_of_bind h
  obtain ⟨rfl, rfl⟩ := ok_of_pure h
  unfold compareParent at hcompared
  rw [trackSuperclass, bind_of_ok (mimics_told (body, owner) G _ _ _ _ hcompared)]
  exact bind_of_ok (mimics_told (body, .subclass) G _ _ _ _ hsite)

mutual

/-- The walk that keeps track does to a statement what the walk does that is told. -/
theorem trackStmt_mimics : (s : Stmt Unit) → ∀ (here : Surroundings),
    Mimics (trackStmt G s) (stmt ⟨G, here.1, here.2⟩ s) here here
  | .block body, here => by
    simp only [trackStmt, stmt]
    exact (trackStmts_mimics body here).scoped fun _ => .pure _
  | .define r, here => by
    simp only [trackStmt, stmt]
    refine (mimics_told here G _).bind fun _ => ?_
    exact (trackRoutine_mimics .function r here).bind fun _ => .pure _
  | .classDef name parent methods, here => by
    simp only [trackStmt, stmt]
    refine Mimics.after_currentOwner (Mimics.after_setOwner ?_)
    refine (mimics_told (here.1, .baseClass) G _).bind fun _ => ?_
    cases parent with
    | none =>
      refine (Mimics.pure none).bind fun parent' => ?_
      refine (trackMethods_mimic methods (here.1, .baseClass)).scoped fun methods' => ?_
      exact Mimics.after_pure (Mimics.after_setOwner (.pure _))
    | some parent =>
      intro w b w' h
      obtain ⟨parent', w₁, hparent, h⟩ := ok_of_bind h
      obtain ⟨methods', w₂, hclass, h⟩ := ok_of_bind h
      obtain ⟨rfl, rfl⟩ := ok_of_pure h
      obtain ⟨middle, hmiddle, rfl⟩ := ok_of_inScope hclass
      obtain ⟨inner, hmethods, rfl⟩ := ok_of_inScope hmiddle
      rw [bind_of_ok (trackSuperclass_apply here.1 .baseClass hparent)]
      exact bind_of_ok (trackMethods_mimic methods (here.1, .subclass) _ _ _ hmethods)
  | .evaluate e, here => by
    simp only [trackStmt, stmt]
    exact (mimics_told here G _).bind fun _ => .pure _
  | .branch condition whenTrue none, here => by
    simp only [trackStmt, stmt]
    refine (mimics_told here G _).bind fun _ => ?_
    exact (trackStmt_mimics whenTrue here).bind fun _ => .pure _
  | .branch condition whenTrue (some whenFalse), here => by
    simp only [trackStmt, stmt]
    refine (mimics_told here G _).bind fun _ => ?_
    refine (trackStmt_mimics whenTrue here).bind fun _ => ?_
    exact (trackStmt_mimics whenFalse here).bind fun _ => .pure _
  | .print e, here => by
    simp only [trackStmt, stmt]
    exact (mimics_told here G _).bind fun _ => .pure _
  | .giveBack keyword value, here => by
    simp only [trackStmt, stmt]
    refine (mimics_told here G _).bind fun _ => ?_
    exact (mimics_told here G _).bind fun _ => .pure _
  | .assign name value _, here => by
    simp only [trackStmt, stmt]
    exact mimics_told here G _
  | .loop condition body, here => by
    simp only [trackStmt, stmt]
    refine (mimics_told here G _).bind fun _ => ?_
    exact (trackStmt_mimics body here).bind fun _ => .pure _
  | .unknown, here => fun _ _ _ h => absurd h throw_ne_ok

theorem trackStmts_mimics : (ss : List (Stmt Unit)) → ∀ (here : Surroundings),
    Mimics (trackStmts G ss) (stmts ⟨G, here.1, here.2⟩ ss) here here
  | [], here => .pure _
  | s :: ss, here => by
    simp only [trackStmts, stmts]
    refine (trackStmt_mimics s here).bind fun _ => ?_
    exact (trackStmts_mimics ss here).bind fun _ => .pure _

theorem trackRoutine_mimics (kind : Body) : (r : Routine Unit) → ∀ (here : Surroundings),
    Mimics (trackRoutine G kind r) (routine ⟨G, kind, here.2⟩ r) here here
  | .mk name params body returnType, here => by
    simp only [trackRoutine, routine]
    refine Mimics.after_currentBody (Mimics.after_setBody ?_)
    refine (trackStmts_mimics body (kind, here.2)).scoped fun _ => ?_
    exact Mimics.after_setBody (.pure _)

theorem trackMethods_mimic : (rs : List (Routine Unit)) → ∀ (here : Surroundings),
    Mimics (trackMethods G rs) (routines ⟨G, here.1, here.2⟩ rs) here here
  | [], here => .pure _
  | r :: rs, here => by
    simp only [trackMethods, routines]
    refine (trackRoutine_mimics (methodBody r) r here).bind fun _ => ?_
    exact (trackMethods_mimic rs here).bind fun _ => .pure _

end

end Statements

/-! ## Programs -/

/-- **The walk reports exactly what is wrong.**  For every program of the shape in which programs are read, and
every list of known names, binding yields a program, and its reports are those of the violations, one for each
and in the order of the walk.  A walk that keeps track of routines and classes yields the same; at its end no
scope is open, and it stands in no routine and in no class. -/
theorem program_reports_violations (known : List String) {statements : List (Stmt Unit)}
    (h : Program.Shaped statements) :
    ∃ bound,
      program known statements = ⟨.ok bound, (violations known statements).map reportOf⟩ ∧
      trackStmts (globalNames known statements) statements ⟨⟨[], []⟩, .topLevel, .noClass⟩ =
        .ok bound ⟨⟨[], (violations known statements).map reportOf⟩, .topLevel, .noClass⟩ := by
  obtain ⟨bound, hbound⟩ := stmts_tell_program known h
  refine ⟨bound, ?_, trackStmts_mimics statements (.topLevel, .noClass) _ _ _ hbound⟩
  rw [program, hbound]

/-- A class that inherits from itself and whose initializer gives back a value, and a name that is read in its
own initializer. -/
def faultyText : String :=
  "class A :: A:\n function init():\n  return 1\n:\n set x to x\n"

/-- The statements of the text. -/
def faultyStatements : List (Stmt Unit) :=
  (Program.read Program.argumentLimit (Token.scan faultyText).stream).statements

theorem faultyStatements_reports :
    (violations [] faultyStatements).map Prod.snd = [.inheritsFromItself, .returnFromInitializer, .ownInitializer] ∧
      ∃ bound,
        program [] faultyStatements = ⟨.ok bound, (violations [] faultyStatements).map reportOf⟩ ∧
        trackStmts (globalNames [] faultyStatements) faultyStatements ⟨⟨[], []⟩, .topLevel, .noClass⟩ =
          .ok bound ⟨⟨[], (violations [] faultyStatements).map reportOf⟩, .topLevel, .noClass⟩ := by
  have hread : (Program.read Program.argumentLimit (Token.scan faultyText).stream).reports = [] := by
    decide +kernel
  exact ⟨by decide +kernel, program_reports_violations [] (Program.shaped_of_read hread)⟩

end Offside.Binding
