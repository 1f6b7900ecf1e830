import Mathlib.Data.List.Forall2
import Offside.Proofs.Binding.Within

/-!
# Binding a program in pieces

Which names count as global matters in one place only: `set` asks for it where some scope is open and none of
the open scopes declares its name.  So two lists of global names bind a program alike if they agree on the
names that are set inside its scopes, and a program that is bound as a whole is bound in the same way in two
pieces, if the second one knows the names of the first.  As the names of all statements are global, it does not
matter either in which order they stand.

* `Binding.nestedTargets` — the names that a program sets inside its scopes;
* `Binding.stmt_congr`, `Binding.program_congr` — binding depends on no other names;
* `Binding.program_append` — the pieces of a program;
* `Binding.innerNames`, `Binding.statements_within` — the names that its statements bind globally from inside;
* `Binding.program_swap` — two statements of a program in the other order.
-/

set_option autoImplicit false

namespace Offside.Binding

open Step

/-! ## The names that are set -/

mutual

/-- The names that are set in a statement, among them its own if it stands inside some scope. -/
def stmtTargets (inside : Bool) : Stmt Unit → List String
  | .block body => stmtsTargets true body
  | .define r => routineTargets r
  | .classDef _ _ methods => routinesTargets methods
  | .branch _ whenTrue none => stmtTargets inside whenTrue
  | .branch _ whenTrue (some whenFalse) => stmtTargets inside whenTrue ++ stmtTargets inside whenFalse
  | .assign name _ _ => if inside then [name.lexeme] else []
  | .loop _ body => stmtTargets inside body
  | .evaluate _ | .print _ | .giveBack _ _ | .unknown => []

/-- The same of several statements. -/
def stmtsTargets (inside : Bool) : List (Stmt Unit) → List String
  | [] => []
  | s :: ss => stmtTargets inside s ++ stmtsTargets inside ss

/-- The names that are set in the body of a routine. -/
def routineTargets : Routine Unit → List String
  | .mk _ _ body _ => stmtsTargets true body

/-- The same of several routines. -/
def routinesTargets : List (Routine Unit) → List String
  | [] => []
  | r :: rs => routineTargets r ++ routinesTargets rs

end

/-- The names that a program sets inside its scopes: in blocks, functions and methods. -/
def nestedTargets (statements : List (Stmt Unit)) : List String :=
  stmtsTargets false statements

/-- The names that a program binds outside all scopes and sets inside some of them. -/
def innerNames (statements : List (Stmt Unit)) : List String :=
  (nestedTargets statements).filter fun name => name ∈ topLevelNames statements

theorem mem_innerNames {statements : List (Stmt Unit)} {name : String} :
    name ∈ innerNames statements ↔ name ∈ nestedTargets statements ∧ name ∈ topLevelNames statements := by
  rw [innerNames, List.mem_filter, decide_eq_true_iff]

theorem stmtTargets_subset {inside : Bool} {s : Stmt Unit} {ss : List (Stmt Unit)} (h : s ∈ ss) :
    stmtTargets inside s ⊆ stmtsTargets inside ss := by
  induction ss with
  | nil => cases h
  | cons t ss ih =>
    rcases List.mem_cons.1 h with rfl | h
    · exact List.subset_append_left _ _
    · exact List.subset_append_of_subset_right _ (ih h)

/-! ## Expressions never ask for global names -/

mutual

theorem expr_globals (ctx : Context) (G : List String) : (e : Expr Unit) →
    expr { ctx with globals := G } e = expr ctx e
  | .literal _ | .name _ _ | .thisRef _ _ | .superRef _ _ _ | .unknown => rfl
  | .group inner => by simp only [expr, expr_globals ctx G inner]
  | .unary _ operand => by simp only [expr, expr_globals ctx G operand]
  | .binary left _ right => by simp only [expr, expr_globals ctx G left, expr_globals ctx G right]
  | .logical left _ right => by simp only [expr, expr_globals ctx G left, expr_globals ctx G right]
  | .setField object _ value => by simp only [expr, expr_globals ctx G object, expr_globals ctx G value]
  | .getField object _ => by simp only [expr, expr_globals ctx G object]
  | .call callee _ arguments => by
    simp only [expr, expr_globals ctx G callee, exprs_globals ctx G arguments]

theorem exprs_globals (ctx : Context) (G : List String) : (es : List (Expr Unit)) →
    exprs { ctx with globals := G } es = exprs ctx es
  | [] => rfl
  | e :: es => by simp only [exprs, expr_globals ctx G e, exprs_globals ctx G es]

end

theorem expr?_globals (ctx : Context) (G : List String) (e : Option (Expr Unit)) :
    expr? { ctx with globals := G } e = expr? ctx e := by
  cases e with
  | none => rfl
  | some e => simp only [expr?, expr_globals]

/-! ## Statements ask for the names that they set -/

theorem inScope_congr {α : Type} {scope : Scope} {step step' : Binder α} {w : Walk}
    (h : step (w.within scope) = step' (w.within scope)) : inScope scope step w = inScope scope step' w :=
  bind_congr rfl fun _ _ hopen => by
    cases hopen
    exact bind_congr h fun _ _ _ => rfl

theorem inClass_congr {α : Type} {derived : Bool} {step step' : Binder α} {w : Walk}
    (h : step (w.withinClass derived) = step' (w.withinClass derived)) :
    inClass derived step w = inClass derived step' w := by
  cases derived with
  | false => exact inScope_congr h
  | true => exact inScope_congr (inScope_congr h)

theorem target?_congr {G G' : List String} {scopes : List Scope} {name : String}
    (h : scopes ≠ [] → (name ∈ G ↔ name ∈ G')) : target? G scopes name = target? G' scopes name := by
  unfold target?
  cases scopes with
  | nil => rfl
  | cons scope outer =>
    have hcontains : G.contains name = G'.contains name := by
      rw [Bool.eq_iff_iff, List.contains_iff_mem, List.contains_iff_mem]
      exact h (List.cons_ne_nil _ _)
    rw [hcontains]

theorem assign_congr {ctx : Context} {G : List String} {name : Token} (value : Option (Expr Unit)) {w : Walk}
    (h : w.scopes ≠ [] → (name.lexeme ∈ G ↔ name.lexeme ∈ ctx.globals)) :
    assign { ctx with globals := G } name value w = assign ctx name value w := by
  unfold assign
  refine bind_congr rfl fun _ _ hget => ?_
  cases hget
  simp only [target?_congr h, expr?_globals]

/-- A statement outside all scopes leaves it at that. -/
theorem Declares.outside {s : Stmt Unit} {b : Stmt Distance} {w w' : Walk} (h : Declares s b w w')
    (hw : w.scopes = []) : w'.scopes = [] := by
  rw [← List.length_eq_zero_iff, h.scopes, length_declared, hw]
  rfl

mutual

/-- A statement is bound alike under two lists of global names that agree on the names that it sets, except for
those that it sets outside all scopes. -/
theorem stmt_congr (ctx : Context) (G : List String) (inside : Bool) : (s : Stmt Unit) → s.Plain →
    ∀ {w : Walk}, (inside = false → w.scopes = []) →
      (∀ name ∈ stmtTargets inside s, name ∈ G ↔ name ∈ ctx.globals) →
        stmt { ctx with globals := G } s w = stmt ctx s w
  | .block body, hp, w, _, hG => by
    simp only [stmt]
    exact bind_congr (inScope_congr (stmts_congr ctx G true body hp nofun hG)) fun _ _ _ => rfl
  | .define r, hp, w, _, hG => by
    simp only [stmt]
    refine bind_congr rfl fun _ w₁ _ => ?_
    exact bind_congr (routine_congr { ctx with body := .function } G r hp.2 hG) fun _ _ _ => rfl
  | .classDef name parent methods, hp, w, _, hG => by
    simp only [stmt]
    refine bind_congr rfl fun _ w₁ _ => bind_congr rfl fun _ w₂ _ => ?_
    let owner := if parent.isSome then Owner.subclass else .baseClass
    exact bind_congr (inClass_congr (routines_congr { ctx with owner := owner } G methods hp.2 hG))
      fun _ _ _ => rfl
  | .evaluate e, _, w, _, _ => by simp only [stmt, expr_globals]
  | .branch condition whenTrue none, hp, w, hw, hG => by
    simp only [stmt, expr_globals]
    refine bind_congr rfl fun _ w₁ hc => ?_
    have hw₁ : inside = false → w₁.scopes = [] := by
      rw [(expr_keeps ctx condition hc).scopes]
      exact hw
    exact bind_congr (stmt_congr ctx G inside whenTrue hp.2.2 hw₁ hG) fun _ _ _ => rfl
  | .branch condition whenTrue (some whenFalse), hp, w, hw, hG => by
    simp only [stmt, expr_globals]
    obtain ⟨hGt, hGf⟩ := List.forall_mem_append.1 hG
    obtain ⟨-, ⟨-, htp⟩, -, hfp⟩ := hp
    refine bind_congr rfl fun _ w₁ hc => ?_
    have hw₁ : inside = false → w₁.scopes = [] := by
      rw [(expr_keeps ctx condition hc).scopes]
      exact hw
    refine bind_congr (stmt_congr ctx G inside whenTrue htp hw₁ hGt) fun _ w₂ ht => ?_
    have hw₂ : inside = false → w₂.scopes = [] :=
      fun hout => (stmt_declares ctx whenTrue htp ht).outside (hw₁ hout)
    exact bind_congr (stmt_congr ctx G inside whenFalse hfp hw₂ hGf) fun _ _ _ => rfl
  | .print e, _, w, _, _ => by simp only [stmt, expr_globals]
  | .giveBack keyword value, _, w, _, _ => by
    simp only [stmt, expr?_globals]
    rfl
  | .assign name value _, _, w, hw, hG => by
    simp only [stmt]
    refine assign_congr value fun hscopes => hG _ ?_
    cases inside with
    | false => exact absurd (hw rfl) hscopes
    | true => exact List.mem_singleton_self _
  | .loop condition body, hp, w, hw, hG => by
    simp only [stmt, expr_globals]
    refine bind_congr rfl fun _ w₁ hc => ?_
    have hw₁ : inside = false → w₁.scopes = [] := by
      rw [(expr_keeps ctx condition hc).scopes]
      exact hw
    exact bind_congr (stmt_congr ctx G inside body hp.2.2 hw₁ hG) fun _ _ _ => rfl
  | .unknown, _, w, _, _ => rfl

theorem stmts_congr (ctx : Context) (G : List String) (inside : Bool) : (ss : List (Stmt Unit)) →
    Stmt.PlainAll ss → ∀ {w : Walk}, (inside = false → w.scopes = []) →
      (∀ name ∈ stmtsTargets inside ss, name ∈ G ↔ name ∈ ctx.globals) →
        stmts { ctx with globals := G } ss w = stmts ctx ss w
  | [], _, w, _, _ => rfl
  | s :: ss, hp, w, hw, hG => by
    obtain ⟨hGs, hGss⟩ := List.forall_mem_append.1 hG
    simp only [stmts]
    refine bind_congr (stmt_congr ctx G inside s hp.1 hw hGs) fun _ w₁ hs => ?_
    have hw₁ : inside = false → w₁.scopes = [] :=
      fun hout => (stmt_declares ctx s hp.1 hs).outside (hw hout)
    exact bind_congr (stmts_congr ctx G inside ss hp.2 hw₁ hGss) fun _ _ _ => rfl

theorem routine_congr (ctx : Context) (G : List String) : (r : Routine Unit) → r.Plain →
    ∀ {w : Walk}, (∀ name ∈ routineTargets r, name ∈ G ↔ name ∈ ctx.globals) →
      routine { ctx with globals := G } r w = routine ctx r w
  | .mk name params body returnType, hp, w, hG => by
    simp only [routine]
    exact bind_congr (inScope_congr (stmts_congr ctx G true body hp.2 nofun hG)) fun _ _ _ => rfl

theorem routines_congr (ctx : Context) (G : List String) : (rs : List (Routine Unit)) →
    Routine.PlainAll rs → ∀ {w : Walk}, (∀ name ∈ routinesTargets rs, name ∈ G ↔ name ∈ ctx.globals) →
      routines { ctx with globals := G } rs w = routines ctx rs w
  | [], _, w, _ => rfl
  | r :: rs, hp, w, hG => by
    obtain ⟨hGr, hGrs⟩ := List.forall_mem_append.1 hG
    simp only [routines]
    refine bind_congr (routine_congr { ctx with body := methodBody r } G r hp.1 hGr) fun _ w₁ _ => ?_
    exact bind_congr (routines_congr ctx G rs hp.2 hGrs) fun _ _ _ => rfl

end

/-! ## Programs -/

/-- Outside all scopes a statement declares the name that it binds. -/
theorem declaredName?_of_stmt {ctx : Context} {s : Stmt Unit} {b : Stmt Distance} {w w' : Walk} (hp : s.Plain)
    (hw : w.scopes = []) (h : stmt ctx s w = .ok b w') : declaredName? b = boundName? s := by
  have hname := (stmt_declares ctx s hp h).name
  cases s with
  | define r =>
    simp only [stmt, bind_eq_ok_iff, pure_eq_ok_iff] at h
    obtain ⟨_, _, -, _, _, -, rfl, -⟩ := h
    exact hname
  | classDef name parent methods =>
    simp only [stmt, bind_eq_ok_iff, pure_eq_ok_iff] at h
    obtain ⟨_, _, -, _, _, -, _, _, -, rfl, -⟩ := h
    exact hname
  | assign name value site =>
    simp only [stmt] at h
    rcases ok_of_assign h with ⟨d, v, htarget, -, -⟩ | ⟨v, inner, -, -, rfl, -⟩
    · rw [hw] at htarget
      cases htarget
    · rfl
  | _ =>
    -- Statements of the other kinds bind no name.
    cases b with
    | define | classDef | assign => cases hname
    | _ => rfl

theorem outside_of_stmts {ctx : Context} {ss : List (Stmt Unit)} {bs : List (Stmt Distance)} {w w' : Walk}
    (hp : Stmt.PlainAll ss) (hw : w.scopes = []) (h : stmts ctx ss w = .ok bs w') :
    w'.scopes = [] ∧ bs.filterMap declaredName? = topLevelNames ss := by
  induction ss generalizing bs w with
  | nil =>
    simp only [stmts, pure_eq_ok_iff] at h
    obtain ⟨rfl, rfl⟩ := h
    exact ⟨hw, rfl⟩
  | cons s ss ih =>
    simp only [stmts, bind_eq_ok_iff, pure_eq_ok_iff] at h
    obtain ⟨b, w₁, hs, _, _, hss, rfl, rfl⟩ := h
    obtain ⟨hscopes, hnames⟩ := ih hp.2 ((stmt_declares ctx s hp.1 hs).outside hw) hss
    refine ⟨hscopes, ?_⟩
    rw [topLevelNames, List.filterMap_cons, List.filterMap_cons, declaredName?_of_stmt hp.1 hw hs, hnames]
    rfl

theorem ok_of_stmts_append {ctx : Context} {p q : List (Stmt Unit)} {bs : List (Stmt Distance)} {w w' : Walk}
    (h : stmts ctx (p ++ q) w = .ok bs w') :
    ∃ bs₁ bs₂ w₁, bs = bs₁ ++ bs₂ ∧ stmts ctx p w = .ok bs₁ w₁ ∧ stmts ctx q w₁ = .ok bs₂ w' := by
  induction p generalizing bs w with
  | nil => exact ⟨[], bs, w, rfl, rfl, h⟩
  | cons s p ih =>
    simp only [List.cons_append, stmts, bind_eq_ok_iff, pure_eq_ok_iff] at h ⊢
    obtain ⟨b, w₁, hs, _, _, hss, rfl, rfl⟩ := h
    obtain ⟨bs₁, bs₂, w₂, rfl, hp, hq⟩ := ih hss
    exact ⟨b :: bs₁, bs₂, w₂, rfl, ⟨b, w₁, hs, bs₁, w₂, hp, rfl, rfl⟩, hq⟩

/-- A program is bound without a report if the walk comes back with no scope open and nothing reported. -/
theorem program_eq_ok_iff {known : List String} {statements : List (Stmt Unit)} {bound : List (Stmt Distance)}
    (hp : Stmt.PlainAll statements) : program known statements = ⟨.ok bound, []⟩ ↔
      stmts (.top (globalNames known statements)) statements ⟨[], []⟩ = .ok bound ⟨[], []⟩ := by
  unfold program
  constructor
  · intro h
    cases hwalk : stmts (.top (globalNames known statements)) statements ⟨[], []⟩ with
    | error e w =>
      rw [hwalk] at h
      cases h
    | ok bs w =>
      obtain ⟨scopes, reports⟩ := w
      obtain ⟨rfl, -⟩ := outside_of_stmts hp rfl hwalk
      rw [hwalk] at h
      cases h
      rfl
  · intro h
    rw [h]

/-- A program declares all its names. -/
theorem declared_of_program {known : List String} {statements : List (Stmt Unit)}
    {bound : List (Stmt Distance)} (hp : Stmt.PlainAll statements)
    (h : program known statements = ⟨.ok bound, []⟩) :
    bound.filterMap declaredName? = topLevelNames statements :=
  (outside_of_stmts hp rfl ((program_eq_ok_iff hp).1 h)).2

/-- A program is bound alike under lists of global names that agree on what it sets inside its scopes. -/
theorem program_congr {known : List String} {G : List String} {statements : List (Stmt Unit)}
    {bound : List (Stmt Distance)} (hp : Stmt.PlainAll statements)
    (h : stmts (.top G) statements ⟨[], []⟩ = .ok bound ⟨[], []⟩)
    (hG : ∀ name ∈ nestedTargets statements, name ∈ globalNames known statements ↔ name ∈ G) :
    program known statements = ⟨.ok bound, []⟩ := by
  rw [program_eq_ok_iff hp, ← h]
  exact stmts_congr (.top G) _ false statements hp (fun _ => rfl) hG

theorem plainAll_append {p q : List (Stmt Unit)} (hp : Stmt.PlainAll p) (hq : Stmt.PlainAll q) :
    Stmt.PlainAll (p ++ q) := by
  induction p with
  | nil => exact hq
  | cons s p ih => exact ⟨hp.1, ih hp.2⟩

theorem mem_globalNames_append {known : List String} {p q : List (Stmt Unit)} {name : String} :
    name ∈ globalNames known (p ++ q) ↔ name ∈ globalNames known p ∨ name ∈ topLevelNames q := by
  simp only [globalNames, topLevelNames, List.filterMap_append, List.mem_append, or_assoc]

/-- **A program is bound in pieces as it is as a whole**, if the first piece sets inside its scopes no name of the
second that does not count as global without it, and if of the names that the second one sets inside its scopes
those count as global that do in the whole. -/
theorem program_append {known : List String} {p q : List (Stmt Unit)} {bound : List (Stmt Distance)}
    (hp : Stmt.PlainAll p) (hq : Stmt.PlainAll q) (h : program known (p ++ q) = ⟨.ok bound, []⟩)
    (hlocal : ∀ name ∈ nestedTargets p, name ∈ topLevelNames q → name ∈ globalNames known p) :
    ∃ bound₁ bound₂, bound = bound₁ ++ bound₂ ∧ program known p = ⟨.ok bound₁, []⟩ ∧
      ∀ known' : List String,
        (∀ name ∈ nestedTargets q, name ∈ globalNames known' q ↔ name ∈ globalNames known (p ++ q)) →
          program known' q = ⟨.ok bound₂, []⟩ := by
  rw [program_eq_ok_iff (plainAll_append hp hq)] at h
  obtain ⟨bound₁, bound₂, ⟨scopes, reports⟩, rfl, h₁, h₂⟩ := ok_of_stmts_append h
  obtain ⟨rfl, -⟩ := outside_of_stmts hp rfl h₁
  obtain rfl : reports = [] := List.prefix_nil.1 (stmts_keepsOuter _ q hq h₂).reports
  refine ⟨bound₁, bound₂, rfl, program_congr hp h₁ ?_, ?_⟩
  · intro name hname
    rw [mem_globalNames_append]
    exact ⟨Or.inl, fun hmem => hmem.elim id (hlocal name hname)⟩
  · exact fun known' hknown => program_congr hq h₂ hknown

/-! ## Statements in another order -/

theorem plainAll_iff {ss : List (Stmt Unit)} : Stmt.PlainAll ss ↔ ∀ s ∈ ss, s.Plain := by
  induction ss with
  | nil => exact ⟨fun _ => nofun, fun _ => trivial⟩
  | cons s ss ih =>
    rw [List.forall_mem_cons, ← ih]
    rfl

/-- A statement outside all scopes is bound on its own, whatever stands in front of it. -/
theorem stmts_outside_iff {ctx : Context} {ss : List (Stmt Unit)} {bs : List (Stmt Distance)}
    (hp : Stmt.PlainAll ss) : stmts ctx ss ⟨[], []⟩ = .ok bs ⟨[], []⟩ ↔
      List.Forall₂ (fun s b => stmt ctx s ⟨[], []⟩ = .ok b ⟨[], []⟩) ss bs := by
  induction ss generalizing bs with
  | nil =>
    simp only [stmts, pure_eq_ok_iff, and_true, List.forall₂_nil_left_iff]
    exact eq_comm
  | cons s ss ih =>
    simp only [stmts, bind_eq_ok_iff, pure_eq_ok_iff]
    constructor
    · rintro ⟨b, ⟨scopes, reports⟩, hs, rest, _, hss, rfl, rfl⟩
      obtain rfl : scopes = [] := (stmt_declares ctx s hp.1 hs).outside rfl
      obtain rfl : reports = [] := List.prefix_nil.1 (stmts_keepsOuter ctx ss hp.2 hss).reports
      exact .cons hs ((ih hp.2).1 hss)
    · rintro (_ | ⟨hs, hss⟩)
      exact ⟨_, _, hs, _, _, (ih hp.2).2 hss, rfl, rfl⟩

/-- **What a statement of a program binds globally.**  From inside its scopes, each statement of a program that is bound
without a report binds globally only names that were known and inner names of the program. -/
theorem statements_within {known : List String} {statements : List (Stmt Unit)} {bound : List (Stmt Distance)}
    (hp : Stmt.PlainAll statements) (h : program known statements = ⟨.ok bound, []⟩) :
    ∀ b ∈ bound, StmtWithin (known ++ innerNames statements ++ (declaredName? b).toList) 0 b := by
  have hwalk := (stmts_outside_iff hp).1 ((program_eq_ok_iff hp).1 h)
  intro b hb
  obtain ⟨i, hi, rfl⟩ := List.mem_iff_getElem.1 hb
  have hi' : i < statements.length := hwalk.length_eq ▸ hi
  have hs := hwalk.get hi' hi
  have hmem := List.getElem_mem hi'
  rw [List.get_eq_getElem, List.get_eq_getElem] at hs
  generalize statements[i] = s at hs hmem
  have hplain := plainAll_iff.1 hp s hmem
  have hname := declaredName?_of_stmt hplain rfl hs
  have hown : ∀ name ∈ boundName? s, name ∈ topLevelNames statements := fun name hname =>
    List.mem_filterMap.2 ⟨s, hmem, hname⟩
  rw [hname]
  -- of the names that it sets inside its scopes, those are global that are known, inner names, or its own
  have hsame := stmt_congr (.top (globalNames known statements))
    (known ++ innerNames statements ++ (boundName? s).toList) false s hplain (w := ⟨[], []⟩) (fun _ => rfl) ?_
  · rw [hs] at hsame
    exact stmt_within _ s hplain (fun _ name hname => List.mem_append_right _ (Option.mem_toList.2 hname)) hsame rfl
  · intro name htarget
    have hnested : name ∈ nestedTargets statements := stmtTargets_subset hmem htarget
    simp only [globalNames, Context.top, List.mem_append, mem_innerNames, Option.mem_toList]
    constructor
    · rintro ((hknown | hinner) | hbound)
      · exact Or.inl hknown
      · exact Or.inr hinner.2
      · exact Or.inr (hown name hbound)
    · rintro (hknown | htop)
      · exact Or.inl (Or.inl hknown)
      · exact Or.inl (Or.inr ⟨hnested, htop⟩)

/-- **Statements of a program are bound alike in either order.** -/
theorem program_swap {known : List String} {p q : List (Stmt Unit)} {s t : Stmt Unit} {bound : List (Stmt Distance)}
    (hp : Stmt.PlainAll (p ++ s :: t :: q)) (h : program known (p ++ s :: t :: q) = ⟨.ok bound, []⟩) :
    ∃ bound₁ bs bt bound₂, bound = bound₁ ++ bs :: bt :: bound₂ ∧
      stmt (.top (globalNames known (p ++ s :: t :: q))) s ⟨[], []⟩ = .ok bs ⟨[], []⟩ ∧
      stmt (.top (globalNames known (p ++ s :: t :: q))) t ⟨[], []⟩ = .ok bt ⟨[], []⟩ ∧
      program known (p ++ t :: s :: q) = ⟨.ok (bound₁ ++ bt :: bs :: bound₂), []⟩ := by
  have hmem : ∀ {u : Stmt Unit}, u ∈ p ++ t :: s :: q ↔ u ∈ p ++ s :: t :: q :=
    ((List.Perm.swap s t q).append_left p).mem_iff
  have hp' : Stmt.PlainAll (p ++ t :: s :: q) :=
    plainAll_iff.2 fun u hu => plainAll_iff.1 hp u (hmem.1 hu)
  rw [program_eq_ok_iff hp, stmts_outside_iff hp] at h
  have hfront := List.forall₂_take p.length h
  have hback := List.forall₂_drop p.length h
  rw [List.take_left] at hfront
  rw [List.drop_left] at hback
  obtain ⟨bs, more, hs, hmore, hbound⟩ := List.forall₂_cons_left_iff.1 hback
  obtain ⟨bt, bound₂, ht, hrest, rfl⟩ := List.forall₂_cons_left_iff.1 hmore
  refine ⟨bound.take p.length, bs, bt, bound₂, ?_, hs, ht, ?_⟩
  · rw [← hbound, List.take_append_drop]
  · refine program_congr hp' ((stmts_outside_iff hp').2 (List.rel_append hfront (.cons ht (.cons hs hrest)))) ?_
    intro name _
    simp only [globalNames, topLevelNames, List.mem_append, List.mem_filterMap, hmem]

/-- A function that was bound has its name. -/
theorem ok_of_define {ctx : Context} {r : Routine Unit} {b : Stmt Distance} {w w' : Walk} (hp : (Stmt.define r).Plain)
    (h : stmt ctx (.define r) w = .ok b w') :
    ∃ r' : Routine Distance, b = .define r' ∧ r'.name.lexeme = r.name.lexeme := by
  have hname := (stmt_declares ctx (.define r) hp h).name
  simp only [stmt, bind_eq_ok_iff, pure_eq_ok_iff] at h
  obtain ⟨_, _, -, r', _, -, rfl, -⟩ := h
  exact ⟨r', rfl, Option.some.inj hname⟩

end Offside.Binding
