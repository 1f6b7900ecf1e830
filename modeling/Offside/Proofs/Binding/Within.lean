import Offside.Proofs.Binding.FirstReads

/-!
# Which names a program may bind globally

A statement binds its name in the current frame or at a distance.  In the global frame only certain names are
ever bound: outside all scopes those of the statements themselves, and from within scopes those that counted as
global when names were bound.  The judgements say this of a tree and the number of scopes around it; they ask
nothing of expressions, which bind no names.  Of two statements in a row they also say that the second one sees what
the first one sets.

* `Binding.MayBind` — a name may be bound at a distance;
* `Binding.StmtWithin`, `Binding.RoutineWithin` — whatever a tree binds, it may bind, and it is seen;
* `Binding.stmt_within`, `Binding.program_within` — what is bound without a report keeps to the global names of its
  walk.
-/

set_option autoImplicit false

namespace Offside.Binding

open Step

/-! ## The judgements -/

/-- With `n` scopes open, a name may be bound `d` scopes outward: programs can bind it, and if that leads to the
global frame, it is one of the names `G`. -/
structure MayBind (G : List String) (n d : Nat) (name : String) : Prop where
  bindable : Bindable name
  global : d = n → name ∈ G

section Judgements

variable (G : List String)

mutual

/-- With `n` scopes open, the statement and its parts bind only names that they may bind. -/
def StmtWithin (n : Nat) (s : Stmt Distance) : Prop :=
  match s with
  | .block body => StmtsWithin (n + 1) body
  | .define r => MayBind G n 0 r.name.lexeme ∧ RoutineWithin n r
  | .classDef name parent methods =>
    MayBind G n 0 name.lexeme ∧ RoutinesWithin ((if parent.isSome then n + 1 else n) + 1) methods
  | .branch _ whenTrue none => StmtWithin n whenTrue
  | .branch _ whenTrue (some whenFalse) => StmtWithin n whenTrue ∧ StmtWithin n whenFalse
  | .assign name _ none => MayBind G n 0 name.lexeme
  | .assign name _ (some d) => MayBind G n d name.lexeme
  | .loop _ body => StmtWithin n body
  | .evaluate _ | .print _ | .giveBack _ _ | .unknown => True

/-- The same of several statements, of which each sees what the one in front of it sets. -/
def StmtsWithin (n : Nat) (ss : List (Stmt Distance)) : Prop :=
  match ss with
  | [] => True
  | s :: ss => StmtWithin n s ∧ (∀ next ∈ ss.head?, Sees n s next) ∧ StmtsWithin n ss

/-- The same of a routine: its parameters, and its body in one more scope. -/
def RoutineWithin (n : Nat) (r : Routine Distance) : Prop :=
  match r with
  | .mk _ params body _ => (∀ t ∈ params, Bindable t.lexeme) ∧ StmtsWithin (n + 1) body

/-- The same of several routines. -/
def RoutinesWithin (n : Nat) (rs : List (Routine Distance)) : Prop :=
  match rs with
  | [] => True
  | r :: rs => RoutineWithin n r ∧ RoutinesWithin n rs

end

end Judgements

theorem routineWithin_iff {G : List String} {n : Nat} {r : Routine Distance} :
    RoutineWithin G n r ↔ (∀ t ∈ r.params, Bindable t.lexeme) ∧ StmtsWithin G (n + 1) r.body := by
  cases r
  rfl

/-- The name that a statement binds in the current frame, if it binds one there. -/
def declaredName? : Stmt Distance → Option String
  | .assign name _ none => some name.lexeme
  | .define r => some r.name.lexeme
  | .classDef name _ _ => some name.lexeme
  | _ => none

/-! ## More global names -/

theorem MayBind.mono {G G' : List String} {n d : Nat} {name : String} (h : MayBind G n d name)
    (hG : G ⊆ G') : MayBind G' n d name :=
  ⟨h.bindable, fun hd => hG (h.global hd)⟩

mutual

theorem StmtWithin.mono {G G' : List String} (hG : G ⊆ G') : (n : Nat) → (s : Stmt Distance) →
    StmtWithin G n s → StmtWithin G' n s
  | n, .block body, h => StmtsWithin.mono hG (n + 1) body h
  | n, .define r, h => ⟨h.1.mono hG, RoutineWithin.mono hG n r h.2⟩
  | _, .classDef _ _ methods, h => ⟨h.1.mono hG, RoutinesWithin.mono hG _ methods h.2⟩
  | n, .branch _ whenTrue none, h => StmtWithin.mono hG n whenTrue h
  | n, .branch _ whenTrue (some whenFalse), h =>
    ⟨StmtWithin.mono hG n whenTrue h.1, StmtWithin.mono hG n whenFalse h.2⟩
  | _, .assign _ _ none, h => MayBind.mono h hG
  | _, .assign _ _ (some _), h => MayBind.mono h hG
  | n, .loop _ body, h => StmtWithin.mono hG n body h
  | _, .evaluate _, _ | _, .print _, _ | _, .giveBack _ _, _ | _, .unknown, _ => trivial

theorem StmtsWithin.mono {G G' : List String} (hG : G ⊆ G') : (n : Nat) → (ss : List (Stmt Distance)) →
    StmtsWithin G n ss → StmtsWithin G' n ss
  | _, [], _ => trivial
  | n, s :: ss, h => ⟨StmtWithin.mono hG n s h.1, h.2.1, StmtsWithin.mono hG n ss h.2.2⟩

theorem RoutineWithin.mono {G G' : List String} (hG : G ⊆ G') : (n : Nat) → (r : Routine Distance) →
    RoutineWithin G n r → RoutineWithin G' n r
  | n, .mk _ _ body _, h => ⟨h.1, StmtsWithin.mono hG (n + 1) body h.2⟩

theorem RoutinesWithin.mono {G G' : List String} (hG : G ⊆ G') : (n : Nat) →
    (rs : List (Routine Distance)) → RoutinesWithin G n rs → RoutinesWithin G' n rs
  | _, [], _ => trivial
  | n, r :: rs, h => ⟨RoutineWithin.mono hG n r h.1, RoutinesWithin.mono hG n rs h.2⟩

end

/-- The statements in front and those behind keep to the names if all do. -/
theorem StmtsWithin.of_append {G : List String} {n : Nat} {ss more : List (Stmt Distance)}
    (h : StmtsWithin G n (ss ++ more)) : StmtsWithin G n ss ∧ StmtsWithin G n more := by
  induction ss with
  | nil => exact ⟨trivial, h⟩
  | cons s ss ih =>
    obtain ⟨hs, hsees, hrest⟩ := h
    obtain ⟨hss, hmore⟩ := ih hrest
    refine ⟨⟨hs, ?_, hss⟩, hmore⟩
    intro next hnext
    cases ss with
    | nil => cases hnext
    | cons first rest => exact hsees next hnext

/-! ## What is bound keeps to the global names -/

/-- What the first statement of several sets is seen by the next one. -/
theorem sees_of_stmts {ctx : Context} {s : Stmt Unit} {ss : List (Stmt Unit)} {b : Stmt Distance}
    {bs : List (Stmt Distance)} {w w₁ w₂ : Walk} (hp : Stmt.PlainAll ss) (hs : stmt ctx s w = .ok b w₁)
    (hss : stmts ctx ss w₁ = .ok bs w₂) (hw : w₂.reports = []) :
    ∀ next ∈ bs.head?, Sees w.scopes.length b next := by
  cases ss with
  | nil =>
    simp only [stmts, pure_eq_ok_iff] at hss
    obtain ⟨rfl, -⟩ := hss
    intro next hnext
    cases hnext
  | cons next rest =>
    simp only [stmts, bind_eq_ok_iff, pure_eq_ok_iff] at hss
    obtain ⟨b', _, hnext, _, _, hrest, rfl, rfl⟩ := hss
    have hquiet := List.prefix_nil.1 (hw ▸ (stmts_keepsOuter ctx rest hp.2 hrest).reports)
    rintro _ ⟨⟩
    exact sees_of_stmt hp.1 hs hnext hquiet

/-- A target outside all scopes is a global name. -/
theorem mem_of_target? {globals : List String} {scopes : List Scope} {name : String}
    (h : target? globals scopes name = some scopes.length) : name ∈ globals := by
  unfold target? at h
  split at h
  · next d hd =>
    obtain rfl := Option.some.inj h
    obtain ⟨hlt, -⟩ := List.findIdx?_eq_some_iff_getElem.1 hd
    exact absurd hlt (Nat.lt_irrefl _)
  · split at h
    · next hglobal =>
      rw [Bool.and_eq_true, List.contains_iff_mem] at hglobal
      exact hglobal.2
    · cases h

theorem assign_within {ctx : Context} {name : Token} {value : Option (Expr Unit)} {b : Stmt Distance}
    {w w' : Walk} (hname : Bindable name.lexeme) (htop : w.scopes = [] → name.lexeme ∈ ctx.globals)
    (h : assign ctx name value w = .ok b w') : StmtWithin ctx.globals w.scopes.length b := by
  rcases ok_of_assign h with ⟨d, v, htarget, -, rfl⟩ | ⟨v, inner, -, -, rfl, -⟩
  · refine ⟨hname, ?_⟩
    rintro rfl
    exact mem_of_target? htarget
  · refine ⟨hname, ?_⟩
    intro hn
    exact htop (List.length_eq_zero_iff.1 hn.symm)

theorem length_declared (s : Stmt Distance) (scopes : List Scope) :
    (declared s scopes).length = scopes.length := by
  unfold declared
  split <;> simp only [length_enter]

theorem length_withinClass (derived : Bool) (w : Walk) : (w.withinClass derived).scopes.length =
    (if derived then w.scopes.length + 1 else w.scopes.length) + 1 := by
  cases derived <;> rfl

mutual

/-- A statement that is bound without a report, outside all scopes under a global name or anywhere inside some
scope, keeps to the global names. -/
theorem stmt_within (ctx : Context) : (s : Stmt Unit) → s.Plain → ∀ {b : Stmt Distance} {w w' : Walk},
    (w.scopes = [] → ∀ name ∈ boundName? s, name ∈ ctx.globals) → stmt ctx s w = .ok b w' → w'.reports = [] →
      StmtWithin ctx.globals w.scopes.length b
  | .block body, hp, b, w, w', _, h, hw => by
    simp only [stmt, bind_eq_ok_iff, pure_eq_ok_iff] at h
    obtain ⟨_, _, hin, rfl, rfl⟩ := h
    obtain ⟨inner, hbody, rfl⟩ := ok_of_inScope hin
    exact stmts_within ctx body hp (fun hs => absurd hs (List.cons_ne_nil _ _)) hbody hw
  | .define r, hp, b, w, w', htop, h, hw => by
    simp only [stmt, bind_eq_ok_iff, pure_eq_ok_iff] at h
    obtain ⟨_, _, hd, r', _, hr, rfl, rfl⟩ := h
    cases hd
    have hname := (routine_keeps _ r hp.2 hr).2
    have hroutine := routine_within { ctx with body := .function } r hp.2 hr hw
    rw [length_enter] at hroutine
    refine ⟨⟨by rw [hname]; exact hp.1, ?_⟩, hroutine⟩
    intro hn
    rw [hname]
    exact htop (List.length_eq_zero_iff.1 hn.symm) _ rfl
  | .classDef name parent methods, hp, b, w, w', htop, h, hw => by
    simp only [stmt, bind_eq_ok_iff, pure_eq_ok_iff] at h
    obtain ⟨_, _, hd, parent', w₁, hs, _, _, hm, rfl, rfl⟩ := h
    cases hd
    obtain ⟨inner, hmethods, hreports, -⟩ := ok_of_inClass hm
    have hroutines := routines_within _ methods hp.2 hmethods (hreports ▸ hw)
    have hlength : w₁.scopes.length = w.scopes.length := by
      rw [(superclass_keeps hs).scopes]
      exact length_enter _ _ _
    rw [length_withinClass, hlength] at hroutines
    refine ⟨⟨hp.1, ?_⟩, ?_⟩
    · intro hn
      exact htop (List.length_eq_zero_iff.1 hn.symm) _ rfl
    · rw [isSome_of_superclass hs]
      exact hroutines
  | .evaluate e, _, b, w, w', _, h, _ => by
    simp only [stmt, bind_eq_ok_iff, pure_eq_ok_iff] at h
    obtain ⟨_, _, -, rfl, -⟩ := h
    trivial
  | .branch condition whenTrue none, hp, b, w, w', _, h, hw => by
    simp only [stmt, bind_eq_ok_iff, pure_eq_ok_iff] at h
    obtain ⟨_, w₁, hc, _, _, ht, rfl, rfl⟩ := h
    have hwhen := stmt_within ctx whenTrue hp.2.2 (fun _ _ hn => by rw [hp.2.1] at hn; cases hn) ht hw
    rw [(expr_keeps ctx condition hc).scopes] at hwhen
    exact hwhen
  | .branch condition whenTrue (some whenFalse), hp, b, w, w', _, h, hw => by
    simp only [stmt, bind_eq_ok_iff, pure_eq_ok_iff] at h
    obtain ⟨_, w₁, hc, _, w₂, ht, _, _, hf, rfl, rfl⟩ := h
    obtain ⟨-, ⟨htn, htp⟩, hfn, hfp⟩ := hp
    have hquiet := ((stmt_declares ctx whenFalse hfp hf).keeps hfn).quiet hw
    have hwhen := stmt_within ctx whenTrue htp (fun _ _ hn => by rw [htn] at hn; cases hn) ht hquiet
    have hother := stmt_within ctx whenFalse hfp (fun _ _ hn => by rw [hfn] at hn; cases hn) hf hw
    rw [((stmt_declares ctx whenTrue htp ht).keeps htn).scopes] at hother
    rw [(expr_keeps ctx condition hc).scopes] at hwhen hother
    exact ⟨hwhen, hother⟩
  | .print e, _, b, w, w', _, h, _ => by
    simp only [stmt, bind_eq_ok_iff, pure_eq_ok_iff] at h
    obtain ⟨_, _, -, rfl, -⟩ := h
    trivial
  | .giveBack keyword value, _, b, w, w', _, h, _ => by
    simp only [stmt, bind_eq_ok_iff, pure_eq_ok_iff] at h
    obtain ⟨_, _, -, _, _, -, rfl, -⟩ := h
    trivial
  | .assign name value _, hp, b, w, w', htop, h, _ => by
    simp only [stmt] at h
    exact assign_within hp.1 (fun hs => htop hs _ rfl) h
  | .loop condition body, hp, b, w, w', _, h, hw => by
    simp only [stmt, bind_eq_ok_iff, pure_eq_ok_iff] at h
    obtain ⟨_, w₁, hc, _, _, hb, rfl, rfl⟩ := h
    have hbody := stmt_within ctx body hp.2.2 (fun _ _ hn => by rw [hp.2.1] at hn; cases hn) hb hw
    rw [(expr_keeps ctx condition hc).scopes] at hbody
    exact hbody
  | .unknown, _, b, w, w', _, h, _ => by
    simp only [stmt] at h
    exact absurd h throw_ne_ok

theorem stmts_within (ctx : Context) : (ss : List (Stmt Unit)) → Stmt.PlainAll ss →
    ∀ {bs : List (Stmt Distance)} {w w' : Walk},
    (w.scopes = [] → ∀ name ∈ topLevelNames ss, name ∈ ctx.globals) → stmts ctx ss w = .ok bs w' →
      w'.reports = [] → StmtsWithin ctx.globals w.scopes.length bs
  | [], _, bs, w, w', _, h, _ => by
    simp only [stmts, pure_eq_ok_iff] at h
    obtain ⟨rfl, -⟩ := h
    trivial
  | s :: ss, hp, bs, w, w', htop, h, hw => by
    simp only [stmts, bind_eq_ok_iff, pure_eq_ok_iff] at h
    obtain ⟨_, w₁, hs, _, _, hss, rfl, rfl⟩ := h
    have hquiet := List.prefix_nil.1 (hw ▸ (stmts_keepsOuter ctx ss hp.2 hss).reports)
    have hdeclares := stmt_declares ctx s hp.1 hs
    have hlength : w₁.scopes.length = w.scopes.length := by
      rw [hdeclares.scopes]
      exact length_declared _ _
    refine ⟨stmt_within ctx s hp.1 ?_ hs hquiet, sees_of_stmts hp.2 hs hss hw, ?_⟩
    · intro hnil name hname
      exact htop hnil name (List.mem_filterMap.2 ⟨s, List.mem_cons_self, hname⟩)
    · rw [← hlength]
      refine stmts_within ctx ss hp.2 ?_ hss hw
      intro hnil name hname
      have hw : w.scopes = [] := by
        rw [hnil] at hlength
        exact List.length_eq_zero_iff.1 hlength.symm
      obtain ⟨t, ht, hbound⟩ := List.mem_filterMap.1 hname
      exact htop hw name (List.mem_filterMap.2 ⟨t, List.mem_cons_of_mem s ht, hbound⟩)

theorem routine_within (ctx : Context) : (r : Routine Unit) → r.Plain → ∀ {r' : Routine Distance}
    {w w' : Walk}, routine ctx r w = .ok r' w' → w'.reports = [] →
      RoutineWithin ctx.globals w.scopes.length r'
  | .mk name params body returnType, hp, r', w, w', h, hw => by
    simp only [routine, bind_eq_ok_iff, pure_eq_ok_iff] at h
    obtain ⟨_, _, hin, rfl, rfl⟩ := h
    obtain ⟨inner, hbody, rfl⟩ := ok_of_inScope hin
    exact ⟨hp.1, stmts_within ctx body hp.2 (fun hs => absurd hs (List.cons_ne_nil _ _)) hbody hw⟩

theorem routines_within (ctx : Context) : (rs : List (Routine Unit)) → Routine.PlainAll rs →
    ∀ {rs' : List (Routine Distance)} {w w' : Walk}, routines ctx rs w = .ok rs' w' → w'.reports = [] →
      RoutinesWithin ctx.globals w.scopes.length rs'
  | [], _, rs', w, w', h, _ => by
    simp only [routines, pure_eq_ok_iff] at h
    obtain ⟨rfl, -⟩ := h
    trivial
  | r :: rs, hp, rs', w, w', h, hw => by
    simp only [routines, bind_eq_ok_iff, pure_eq_ok_iff] at h
    obtain ⟨_, w₁, hr, _, _, hrs, rfl, rfl⟩ := h
    have hquiet := (routines_keep ctx rs hp.2 hrs).quiet hw
    have hmore := routines_within ctx rs hp.2 hrs hw
    rw [(routine_keeps _ r hp.1 hr).1.scopes] at hmore
    exact ⟨routine_within { ctx with body := methodBody r } r hp.1 hr hquiet, hmore⟩

end

/-- **What a program binds globally.**  A program that is bound without a report keeps to the names that were known
and those of its own statements. -/
theorem program_within {known : List String} {statements : List (Stmt Unit)} {bound : List (Stmt Distance)}
    (hp : Stmt.PlainAll statements) (h : program known statements = ⟨.ok bound, []⟩) :
    StmtsWithin (globalNames known statements) 0 bound := by
  unfold program at h
  cases hwalk : stmts (.top (globalNames known statements)) statements ⟨[], []⟩ with
  | error e w =>
    rw [hwalk] at h
    cases h
  | ok bs w =>
    rw [hwalk] at h
    simp only [Outcome.mk.injEq, Except.ok.injEq] at h
    obtain ⟨rfl, hw⟩ := h
    exact stmts_within _ statements hp (fun _ _ hname => List.mem_append_right known hname) hwalk hw

end Offside.Binding
