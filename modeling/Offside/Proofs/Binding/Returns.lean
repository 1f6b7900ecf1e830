import Offside.Proofs.Binding.Walk
import Offside.Proofs.Machine.Rules

/-!
# Where a program returns

A `return` is reported outside all functions, and in an initializer if it has a value.  A program that is bound
without a report therefore returns only from functions and methods, and from initializers without a value.  It
also binds no name that is reserved for classes.

* `Rules.returning` — the rules that such a program is written by;
* `Binding.stmt_returns` and its companions — what is bound without a report is written by these rules;
* `Binding.program_returns` — whole programs.
-/

set_option autoImplicit false

namespace Offside

open Binding (Body Distance)

/-- Code returns from functions alone, and from initializers without a value; it does not bind `this` and
`super`.  It may touch any place. -/
def Rules.returning : Rules where
  place _ := True
  name := Bindable
  back kind given := kind ≠ .topLevel ∧ (kind = .initializer → given = false)

namespace Binding

open Step

/-- Methods return as functions do. -/
def Body.settled : Body → Body
  | .method => .function
  | kind => kind

theorem settled_methodBody (r : Routine Unit) : (methodBody r).settled = r.kind := by
  unfold methodBody Routine.kind
  split <;> rfl

theorem kind_of_name {r : Routine Unit} {r' : Routine Distance} (h : r'.name = r.name) : r'.kind = r.kind := by
  unfold Routine.kind Routine.isInitializer
  rw [h]

/-- A `return` that is not reported stands where it may. -/
theorem back_of_checkReturn {ctx : Context} {keyword : Token} {given : Bool} {w w' : Walk} {u : Unit}
    (h : checkReturn ctx keyword given w = .ok u w') (hw : w'.reports = []) :
    Rules.returning.back ctx.body.settled given := by
  unfold checkReturn at h
  have hvalue : ∀ {w₁ : Walk}, (if given && ctx.body = .initializer then
      complain keyword .returnFromInitializer else pure PUnit.unit) w₁ = .ok u w' →
        w₁.reports = [] ∧ (ctx.body = .initializer → given = false) := by
    intro w₁ h
    split at h
    · exact absurd hw (loud_complain h)
    · next hnot =>
      obtain ⟨-, rfl⟩ := ok_of_pure h
      refine ⟨hw, fun hbody => ?_⟩
      simpa [hbody] using hnot
  split at h
  · obtain ⟨_, w₁, hc, h⟩ := ok_of_bind h
    exact absurd (hvalue h).1 (loud_complain hc)
  · next htop =>
    have hinit := (hvalue h).2
    cases hbody : ctx.body with
    | topLevel => exact absurd hbody htop
    | function | method => exact ⟨nofun, nofun⟩
    | initializer => exact ⟨nofun, fun _ => hinit hbody⟩

mutual

/-- A statement that is bound without a report returns where it may. -/
theorem stmt_returns (ctx : Context) : (s : Stmt Unit) → s.Plain → ∀ {b : Stmt Distance} {w w' : Walk},
    stmt ctx s w = .ok b w' → w'.reports = [] → Rules.returning.StmtHeeds ctx.body.settled b
  | .block body, hp, b, w, w', h, hw => by
    simp only [stmt, bind_eq_ok_iff, pure_eq_ok_iff] at h
    obtain ⟨_, _, hin, rfl, rfl⟩ := h
    obtain ⟨inner, hbody, rfl⟩ := ok_of_inScope hin
    exact stmts_return ctx body hp hbody hw
  | .define r, hp, b, w, w', h, hw => by
    simp only [stmt, bind_eq_ok_iff, pure_eq_ok_iff] at h
    obtain ⟨_, _, hd, r', _, hr, rfl, rfl⟩ := h
    cases hd
    have hname := (routine_keeps _ r hp.2 hr).2
    have hroutine := routine_returns { ctx with body := .function } r hp.2 hr hw
    have hbindable := hp.1
    rw [← hname] at hbindable
    exact ⟨hbindable, hroutine⟩
  | .classDef name parent methods, hp, b, w, w', h, hw => by
    simp only [stmt, bind_eq_ok_iff, pure_eq_ok_iff] at h
    obtain ⟨_, _, hd, _, _, -, _, _, hm, rfl, rfl⟩ := h
    cases hd
    obtain ⟨inner, hmethods, hreports, -⟩ := ok_of_inClass hm
    exact ⟨hp.1, routines_return _ methods hp.2 hmethods (hreports ▸ hw)⟩
  | .evaluate e, _, b, w, w', h, _ => by
    simp only [stmt, bind_eq_ok_iff, pure_eq_ok_iff] at h
    obtain ⟨_, _, -, rfl, -⟩ := h
    trivial
  | .branch condition whenTrue none, hp, b, w, w', h, hw => by
    simp only [stmt, bind_eq_ok_iff, pure_eq_ok_iff] at h
    obtain ⟨_, _, -, _, _, ht, rfl, rfl⟩ := h
    have hwhen := stmt_returns ctx whenTrue hp.2.2 ht hw
    exact hwhen
  | .branch condition whenTrue (some whenFalse), hp, b, w, w', h, hw => by
    simp only [stmt, bind_eq_ok_iff, pure_eq_ok_iff] at h
    obtain ⟨_, _, -, _, _, ht, _, _, hf, rfl, rfl⟩ := h
    obtain ⟨-, ⟨-, htp⟩, hfn, hfp⟩ := hp
    have hquiet := ((stmt_declares ctx whenFalse hfp hf).keeps hfn).quiet hw
    exact ⟨stmt_returns ctx whenTrue htp ht hquiet, stmt_returns ctx whenFalse hfp hf hw⟩
  | .print e, _, b, w, w', h, _ => by
    simp only [stmt, bind_eq_ok_iff, pure_eq_ok_iff] at h
    obtain ⟨_, _, -, rfl, -⟩ := h
    trivial
  | .giveBack keyword value, _, b, w, w', h, hw => by
    simp only [stmt, bind_eq_ok_iff, pure_eq_ok_iff] at h
    obtain ⟨_, _, hc, value', _, he, rfl, rfl⟩ := h
    have hback := back_of_checkReturn hc ((expr?_keeps ctx he).quiet hw)
    have hsome : value'.isSome = value.isSome := by
      cases value with
      | none =>
        obtain ⟨rfl, -⟩ := ok_of_pure he
        rfl
      | some e =>
        simp only [expr?, bind_eq_ok_iff, pure_eq_ok_iff] at he
        obtain ⟨_, _, -, rfl, -⟩ := he
        rfl
    rw [← hsome] at hback
    exact hback
  | .assign name value _, hp, b, w, w', h, _ => by
    simp only [stmt] at h
    rcases ok_of_assign h with ⟨d, v, -, -, rfl⟩ | ⟨v, inner, -, -, rfl, -⟩
    · exact hp.1
    · exact hp.1
  | .loop condition body, hp, b, w, w', h, hw => by
    simp only [stmt, bind_eq_ok_iff, pure_eq_ok_iff] at h
    obtain ⟨_, _, -, _, _, hb, rfl, rfl⟩ := h
    have hbody := stmt_returns ctx body hp.2.2 hb hw
    exact hbody
  | .unknown, _, b, w, w', h, _ => by
    simp only [stmt] at h
    exact absurd h throw_ne_ok

theorem stmts_return (ctx : Context) : (ss : List (Stmt Unit)) → Stmt.PlainAll ss →
    ∀ {bs : List (Stmt Distance)} {w w' : Walk}, stmts ctx ss w = .ok bs w' → w'.reports = [] →
      Rules.returning.StmtsHeed ctx.body.settled bs
  | [], _, bs, w, w', h, _ => by
    simp only [stmts, pure_eq_ok_iff] at h
    obtain ⟨rfl, -⟩ := h
    trivial
  | s :: ss, hp, bs, w, w', h, hw => by
    simp only [stmts, bind_eq_ok_iff, pure_eq_ok_iff] at h
    obtain ⟨_, _, hs, _, _, hss, rfl, rfl⟩ := h
    have hquiet := List.prefix_nil.1 (hw ▸ (stmts_keepsOuter ctx ss hp.2 hss).reports)
    exact ⟨stmt_returns ctx s hp.1 hs hquiet, stmts_return ctx ss hp.2 hss hw⟩

theorem routine_returns (ctx : Context) : (r : Routine Unit) → r.Plain → ∀ {r' : Routine Distance}
    {w w' : Walk}, routine ctx r w = .ok r' w' → w'.reports = [] →
      Rules.returning.RoutineHeeds ctx.body.settled r'
  | .mk name params body returnType, hp, r', w, w', h, hw => by
    simp only [routine, bind_eq_ok_iff, pure_eq_ok_iff] at h
    obtain ⟨_, _, hin, rfl, rfl⟩ := h
    obtain ⟨inner, hbody, rfl⟩ := ok_of_inScope hin
    exact ⟨hp.1, stmts_return ctx body hp.2 hbody hw⟩

theorem routines_return (ctx : Context) : (rs : List (Routine Unit)) → Routine.PlainAll rs →
    ∀ {rs' : List (Routine Distance)} {w w' : Walk}, routines ctx rs w = .ok rs' w' → w'.reports = [] →
      Rules.returning.MethodsHeed rs'
  | [], _, rs', w, w', h, _ => by
    simp only [routines, pure_eq_ok_iff] at h
    obtain ⟨rfl, -⟩ := h
    trivial
  | r :: rs, hp, rs', w, w', h, hw => by
    simp only [routines, bind_eq_ok_iff, pure_eq_ok_iff] at h
    obtain ⟨r', _, hr, _, _, hrs, rfl, rfl⟩ := h
    have hquiet := (routines_keep ctx rs hp.2 hrs).quiet hw
    have hroutine := routine_returns { ctx with body := methodBody r } r hp.1 hr hquiet
    rw [settled_methodBody, ← kind_of_name (routine_keeps _ r hp.1 hr).2] at hroutine
    exact ⟨hroutine, routines_return ctx rs hp.2 hrs hw⟩

end

/-- **Where a program returns.**  A program that is bound without a report returns from functions and methods
alone, and from initializers without a value. -/
theorem program_returns {known : List String} {statements : List (Stmt Unit)} {bound : List (Stmt Distance)}
    (hp : Stmt.PlainAll statements) (h : program known statements = ⟨.ok bound, []⟩) :
    Rules.returning.StmtsHeed .topLevel bound := by
  unfold program at h
  split at h
  · next bs w hbs =>
    simp only [Outcome.mk.injEq, Except.ok.injEq] at h
    obtain ⟨rfl, hw⟩ := h
    exact stmts_return (.top (globalNames known statements)) statements hp hbs hw
  · simp at h

end Binding
end Offside
