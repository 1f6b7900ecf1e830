import Offside.Proofs.Binding.Walk

/-!
# What a statement reads first

A statement may begin by reading a variable: the one that a printed value, a condition or a value to be set begins
with, or the superclass of a class; in a block, the one that its first statement begins with.  No name is declared
before it, except one that must not be read there.  So the read is bound to where its name is declared in front of
the statement, and behind a `set` of the name this is where the value was put: in the current frame, in an outer
one, or in the global frame.

* `Expr.firstRead?`, `Stmt.firstRead?` — the variable that is read first, if there is one;
* `Binding.seat`, `Binding.Sees` — where `set` puts its value, and that the statement behind it reads it there;
* `Binding.stmt_firstRead` — a read that comes first is bound to the scopes in front of its statement;
* `Binding.sees_of_stmt` — statements that are bound one behind the other see what was set.
-/

set_option autoImplicit false

namespace Offside

open Binding (Distance)

/-! ## The variable that is read first -/

/-- A variable that is read before anything else happens, except that blocks are entered. -/
structure FirstRead where
  blocks : Nat
  token : Token
  site : Distance

/-- The same read in one more block. -/
def FirstRead.inBlock (r : FirstRead) : FirstRead :=
  { r with blocks := r.blocks + 1 }

/-- The variable with which the evaluation of an expression begins. -/
def Expr.firstRead? : Expr Distance → Option FirstRead
  | .group inner => inner.firstRead?
  | .unary _ operand => operand.firstRead?
  | .binary left _ _ | .logical left _ _ => left.firstRead?
  | .name token site => some ⟨0, token, site⟩
  | .setField object _ _ | .getField object _ => object.firstRead?
  | .call callee _ _ => callee.firstRead?
  | .literal _ | .thisRef _ _ | .superRef _ _ _ | .unknown => none

mutual

/-- The variable with which the execution of a statement begins. -/
def Stmt.firstRead? : Stmt Distance → Option FirstRead
  | .block body => (Stmt.firstReadOf? body).map FirstRead.inBlock
  | .classDef _ parent _ => parent.map fun p => ⟨0, p.1, p.2⟩
  | .evaluate e | .print e => e.firstRead?
  | .branch condition _ _ | .loop condition _ => condition.firstRead?
  | .giveBack _ value | .assign _ value _ => value.bind Expr.firstRead?
  | .define _ | .unknown => none

/-- The variable with which the execution of several statements begins. -/
def Stmt.firstReadOf? : List (Stmt Distance) → Option FirstRead
  | [] => none
  | s :: _ => s.firstRead?

end

theorem Expr.blocks_of_firstRead? {r : FirstRead} : (e : Expr Distance) → e.firstRead? = some r → r.blocks = 0
  | .group e, h | .unary _ e, h | .binary e _ _, h | .logical e _ _, h | .setField e _ _, h | .getField e _, h
  | .call e _ _, h => blocks_of_firstRead? e h
  | .name _ _, h => Option.some.inj h ▸ rfl
  | .literal _, h | .thisRef _ _, h | .superRef _ _ _, h | .unknown, h => nomatch h

/-- Blocks are entered in blocks alone. -/
theorem Stmt.firstRead?_cases {s : Stmt Distance} {r : FirstRead} (h : s.firstRead? = some r) :
    r.blocks = 0 ∨ ∃ first rest r', s = .block (first :: rest) ∧ first.firstRead? = some r' ∧ r = r'.inBlock := by
  cases s with
  | block body =>
    obtain ⟨r', hr', rfl⟩ := Option.map_eq_some_iff.1 h
    cases body with
    | nil => cases hr'
    | cons first rest => exact Or.inr ⟨first, rest, r', rfl, hr', rfl⟩
  | classDef name parent methods =>
    obtain ⟨p, -, rfl⟩ := Option.map_eq_some_iff.1 h
    exact Or.inl rfl
  | evaluate | print | branch | loop => exact Or.inl (Expr.blocks_of_firstRead? _ h)
  | giveBack | assign =>
    obtain ⟨e, -, he⟩ := Option.bind_eq_some_iff.1 h
    exact Or.inl (Expr.blocks_of_firstRead? e he)
  | define | unknown => cases h

namespace Binding

open Step

/-! ## Where it is found -/

/-- The read is bound to where the scopes in front of its statement declare the name. -/
def FirstIn (scopes : List Scope) (r : FirstRead) : Prop :=
  r.site = (distance? scopes r.token.lexeme).map (· + r.blocks)

/-- Where a read finds the name that `set` binds with `n` scopes open.  In the global frame it is found without a
distance. -/
def seat (n : Nat) : Distance → Distance
  | none => if n = 0 then none else some 0
  | some d => if d = n then none else some d

/-- If a `set` stands in front of the statement `next`, with `n` scopes open, then it binds its name no further out
than the global frame, and `next` finds it there if it begins by reading it. -/
def Sees (n : Nat) : Stmt Distance → Stmt Distance → Prop
  | .assign name _ site, next => (∀ d ∈ site, d ≤ n) ∧
    ∀ r ∈ next.firstRead?, r.token.lexeme = name.lexeme → r.site = (seat n site).map (· + r.blocks)
  | _, _ => True

variable {scopes : List Scope}

theorem firstIn_distance? (scopes : List Scope) (t : Token) :
    FirstIn scopes ⟨0, t, distance? scopes t.lexeme⟩ := by
  simp [FirstIn]

theorem firstIn_inBlock {r : FirstRead} (h : FirstIn ([] :: scopes) r) : FirstIn scopes r.inBlock := by
  unfold FirstIn at h ⊢
  rw [distance?_cons_of_not_declares rfl, Option.map_map] at h
  show r.site = (distance? scopes r.token.lexeme).map (· + (r.blocks + 1))
  rw [h]
  congr 1
  funext d
  simp only [Function.comp]
  omega

/-- A name that waits for its value is not read, so that it does not matter that it is declared. -/
theorem firstIn_of_entering {name : String} {r : FirstRead} (h : FirstIn (enter name false scopes) r)
    (hpending : isPending (enter name false scopes) r.token.lexeme = false) : FirstIn scopes r := by
  cases scopes with
  | nil => exact h
  | cons scope outer =>
    have hne : name ≠ r.token.lexeme := by
      intro hname
      rw [isPending, enter, List.head?_cons, Option.bind_some, List.lookup_cons, hname, beq_self_eq_true] at hpending
      cases hpending
    unfold FirstIn at h ⊢
    rwa [distance?_enter_of_ne hne] at h

/-! ## Expressions -/

/-- A read that comes first in an expression is bound to the scopes around it, and if there is no report its name is
not pending. -/
theorem expr_firstRead (ctx : Context) : (e : Expr Unit) → ∀ {b : Expr Distance} {w w' : Walk},
    expr ctx e w = .ok b w' → w'.reports = [] →
      ∀ r ∈ b.firstRead?, FirstIn w.scopes r ∧ isPending w.scopes r.token.lexeme = false
  | .literal _, b, w, w', h, _ => by
    simp only [expr, pure_eq_ok_iff] at h
    obtain ⟨rfl, -⟩ := h
    intro r hr
    exact absurd hr (Option.not_mem_none r)
  | .group inner, b, w, w', h, hw => by
    simp only [expr, bind_eq_ok_iff, pure_eq_ok_iff] at h
    obtain ⟨_, _, hi, rfl, rfl⟩ := h
    intro r hr
    exact expr_firstRead ctx inner hi hw r hr
  | .unary _ operand, b, w, w', h, hw => by
    simp only [expr, bind_eq_ok_iff, pure_eq_ok_iff] at h
    obtain ⟨_, _, ho, rfl, rfl⟩ := h
    intro r hr
    exact expr_firstRead ctx operand ho hw r hr
  | .binary left _ right, b, w, w', h, hw => by
    simp only [expr, bind_eq_ok_iff, pure_eq_ok_iff] at h
    obtain ⟨_, _, hl, _, _, hr, rfl, rfl⟩ := h
    have hquiet := (expr_keeps ctx right hr).quiet hw
    intro r hfirst
    exact expr_firstRead ctx left hl hquiet r hfirst
  | .logical left _ right, b, w, w', h, hw => by
    simp only [expr, bind_eq_ok_iff, pure_eq_ok_iff] at h
    obtain ⟨_, _, hl, _, _, hr, rfl, rfl⟩ := h
    have hquiet := (expr_keeps ctx right hr).quiet hw
    intro r hfirst
    exact expr_firstRead ctx left hl hquiet r hfirst
  | .name token _, b, w, w', h, hw => by
    simp only [expr, bind_eq_ok_iff, pure_eq_ok_iff] at h
    obtain ⟨_, _, hl, rfl, rfl⟩ := h
    obtain ⟨-, rfl, hpending⟩ := ok_of_locateVariable hl
    rintro r ⟨⟩
    exact ⟨firstIn_distance? w.scopes token, hpending hw⟩
  | .setField object _ value, b, w, w', h, hw => by
    simp only [expr, bind_eq_ok_iff, pure_eq_ok_iff] at h
    obtain ⟨_, _, hv, _, _, ho, rfl, rfl⟩ := h
    -- the value is walked first, but evaluated behind the object
    rw [← (expr_keeps ctx value hv).scopes]
    intro r hr
    exact expr_firstRead ctx object ho hw r hr
  | .getField object _, b, w, w', h, hw => by
    simp only [expr, bind_eq_ok_iff, pure_eq_ok_iff] at h
    obtain ⟨_, _, ho, rfl, rfl⟩ := h
    intro r hr
    exact expr_firstRead ctx object ho hw r hr
  | .call callee _ arguments, b, w, w', h, hw => by
    simp only [expr, bind_eq_ok_iff, pure_eq_ok_iff] at h
    obtain ⟨_, _, hc, _, _, ha, rfl, rfl⟩ := h
    have hquiet := (exprs_keeps ctx arguments ha).quiet hw
    intro r hr
    exact expr_firstRead ctx callee hc hquiet r hr
  | .thisRef keyword _, b, w, w', h, _ => by
    simp only [expr] at h
    split at h
    · simp only [bind_eq_ok_iff, pure_eq_ok_iff] at h
      obtain ⟨_, _, -, rfl, -⟩ := h
      intro r hr
      exact absurd hr (Option.not_mem_none r)
    · simp only [bind_eq_ok_iff, pure_eq_ok_iff] at h
      obtain ⟨_, _, -, rfl, -⟩ := h
      intro r hr
      exact absurd hr (Option.not_mem_none r)
  | .superRef keyword method _, b, w, w', h, _ => by
    simp only [expr, bind_eq_ok_iff, pure_eq_ok_iff] at h
    obtain ⟨_, _, -, _, _, -, rfl, -⟩ := h
    intro r hr
    exact absurd hr (Option.not_mem_none r)
  | .unknown, b, w, w', h, _ => by
    simp only [expr] at h
    exact absurd h throw_ne_ok

theorem expr?_firstRead (ctx : Context) {e : Option (Expr Unit)} {b : Option (Expr Distance)} {w w' : Walk}
    (h : expr? ctx e w = .ok b w') (hw : w'.reports = []) :
    ∀ r ∈ b.bind Expr.firstRead?, FirstIn w.scopes r ∧ isPending w.scopes r.token.lexeme = false := by
  cases e with
  | none =>
    obtain ⟨rfl, -⟩ := ok_of_pure h
    intro r hr
    exact absurd hr (Option.not_mem_none r)
  | some e =>
    simp only [expr?, bind_eq_ok_iff, pure_eq_ok_iff] at h
    obtain ⟨_, _, he, rfl, rfl⟩ := h
    exact expr_firstRead ctx e he hw

/-! ## Statements -/

mutual

/-- A read that comes first in a statement is bound to the scopes in front of the statement. -/
theorem stmt_firstRead (ctx : Context) : (s : Stmt Unit) → s.Plain → ∀ {b : Stmt Distance} {w w' : Walk},
    stmt ctx s w = .ok b w' → w'.reports = [] → ∀ r ∈ b.firstRead?, FirstIn w.scopes r
  | .block body, hp, b, w, w', h, hw => by
    simp only [stmt, bind_eq_ok_iff, pure_eq_ok_iff] at h
    obtain ⟨_, _, hin, rfl, rfl⟩ := h
    obtain ⟨inner, hbody, rfl⟩ := ok_of_inScope hin
    intro r hr
    obtain ⟨r', hr', rfl⟩ := Option.map_eq_some_iff.1 hr
    exact firstIn_inBlock (stmts_firstRead ctx body hp hbody hw r' hr')
  | .define r, _, b, w, w', h, _ => by
    simp only [stmt, bind_eq_ok_iff, pure_eq_ok_iff] at h
    obtain ⟨_, _, -, _, _, -, rfl, -⟩ := h
    intro r hr
    exact absurd hr (Option.not_mem_none r)
  | .classDef name parent methods, hp, b, w, w', h, hw => by
    simp only [stmt, bind_eq_ok_iff, pure_eq_ok_iff] at h
    obtain ⟨_, _, hd, _, w₁, hs, _, _, hm, rfl, rfl⟩ := h
    cases hd
    obtain ⟨inner, hmethods, -, hclose⟩ := ok_of_inClass hm
    have hquiet := (hclose (routines_keep _ methods hp.2 hmethods)).quiet hw
    cases parent with
    | none =>
      rw [(ok_of_superclass_none hs).1]
      intro r hr
      exact absurd hr (Option.not_mem_none r)
    | some p =>
      -- the class is declared already, but it is not its own superclass
      obtain ⟨-, rfl, hne⟩ := ok_of_superclass hs
      rintro r ⟨⟩
      show FirstIn w.scopes ⟨0, p.1, distance? (enter name.lexeme true w.scopes) p.1.lexeme⟩
      rw [distance?_enter_of_ne (hne hquiet)]
      exact firstIn_distance? w.scopes p.1
  | .evaluate e, _, b, w, w', h, hw => by
    simp only [stmt, bind_eq_ok_iff, pure_eq_ok_iff] at h
    obtain ⟨_, _, he, rfl, rfl⟩ := h
    intro r hr
    exact (expr_firstRead ctx e he hw r hr).1
  | .branch condition whenTrue none, hp, b, w, w', h, hw => by
    simp only [stmt, bind_eq_ok_iff, pure_eq_ok_iff] at h
    obtain ⟨_, _, hc, _, _, ht, rfl, rfl⟩ := h
    have hquiet := ((stmt_declares ctx whenTrue hp.2.2 ht).keeps hp.2.1).quiet hw
    intro r hr
    exact (expr_firstRead ctx condition hc hquiet r hr).1
  | .branch condition whenTrue (some whenFalse), hp, b, w, w', h, hw => by
    simp only [stmt, bind_eq_ok_iff, pure_eq_ok_iff] at h
    obtain ⟨_, _, hc, _, _, ht, _, _, hf, rfl, rfl⟩ := h
    obtain ⟨-, ⟨htn, htp⟩, hfn, hfp⟩ := hp
    have hquiet' := ((stmt_declares ctx whenFalse hfp hf).keeps hfn).quiet hw
    have hquiet := ((stmt_declares ctx whenTrue htp ht).keeps htn).quiet hquiet'
    intro r hr
    exact (expr_firstRead ctx condition hc hquiet r hr).1
  | .print e, _, b, w, w', h, hw => by
    simp only [stmt, bind_eq_ok_iff, pure_eq_ok_iff] at h
    obtain ⟨_, _, he, rfl, rfl⟩ := h
    intro r hr
    exact (expr_firstRead ctx e he hw r hr).1
  | .giveBack keyword value, _, b, w, w', h, hw => by
    simp only [stmt, bind_eq_ok_iff, pure_eq_ok_iff] at h
    obtain ⟨_, _, hc, _, _, he, rfl, rfl⟩ := h
    rw [← (keeps_checkReturn hc).scopes]
    intro r hr
    exact (expr?_firstRead ctx he hw r hr).1
  | .assign name value _, _, b, w, w', h, hw => by
    simp only [stmt] at h
    rcases ok_of_assign h with ⟨d, v, -, he, rfl⟩ | ⟨v, inner, -, he, rfl, rfl⟩
    · intro r hr
      exact (expr?_firstRead ctx he hw r hr).1
    · intro r hr
      obtain ⟨hin, hpending⟩ := expr?_firstRead ctx he hw r hr
      exact firstIn_of_entering hin hpending
  | .loop condition body, hp, b, w, w', h, hw => by
    simp only [stmt, bind_eq_ok_iff, pure_eq_ok_iff] at h
    obtain ⟨_, _, hc, _, _, hb, rfl, rfl⟩ := h
    have hquiet := ((stmt_declares ctx body hp.2.2 hb).keeps hp.2.1).quiet hw
    intro r hr
    exact (expr_firstRead ctx condition hc hquiet r hr).1
  | .unknown, _, b, w, w', h, _ => by
    simp only [stmt] at h
    exact absurd h throw_ne_ok

theorem stmts_firstRead (ctx : Context) : (ss : List (Stmt Unit)) → Stmt.PlainAll ss →
    ∀ {bs : List (Stmt Distance)} {w w' : Walk}, stmts ctx ss w = .ok bs w' → w'.reports = [] →
      ∀ r ∈ Stmt.firstReadOf? bs, FirstIn w.scopes r
  | [], _, bs, w, w', h, _ => by
    simp only [stmts, pure_eq_ok_iff] at h
    obtain ⟨rfl, -⟩ := h
    intro r hr
    exact absurd hr (Option.not_mem_none r)
  | s :: ss, hp, bs, w, w', h, hw => by
    simp only [stmts, bind_eq_ok_iff, pure_eq_ok_iff] at h
    obtain ⟨_, _, hs, _, _, hss, rfl, rfl⟩ := h
    have hquiet := List.prefix_nil.1 (hw ▸ (stmts_keepsOuter ctx ss hp.2 hss).reports)
    exact stmt_firstRead ctx s hp.1 hs hquiet

end

/-! ## Behind `set` -/

/-- Behind `set` the name is declared where the value was put: the seat of its distance. -/
theorem seat_of_assign {ctx : Context} {name : Token} {value : Option (Expr Unit)} {b : Stmt Distance}
    {w w' : Walk} (h : assign ctx name value w = .ok b w') :
    ∃ v site, b = .assign name v site ∧ (∀ d ∈ site, d ≤ w.scopes.length) ∧
      distance? w'.scopes name.lexeme = seat w.scopes.length site := by
  rcases ok_of_assign h with ⟨d, v, htarget, he, rfl⟩ | ⟨v, inner, -, he, rfl, rfl⟩
  · refine ⟨v, some d, rfl, ?_, ?_⟩
    · rintro _ ⟨⟩
      exact le_of_target? htarget
    · rw [(expr?_keeps ctx he).scopes]
      unfold target? at htarget
      split at htarget
      · next hd =>
        obtain rfl := Option.some.inj htarget
        obtain ⟨hlt, -⟩ := List.findIdx?_eq_some_iff_getElem.1 hd
        rw [hd, seat, if_neg (Nat.ne_of_lt hlt)]
      · next hnone =>
        split at htarget
        · obtain rfl := Option.some.inj htarget
          rw [hnone, seat, if_pos rfl]
        · cases htarget
  · refine ⟨v, none, rfl, nofun, ?_⟩
    have hscopes : inner.scopes = enter name.lexeme false w.scopes := (expr?_keeps ctx he).scopes
    show distance? (enter name.lexeme true inner.scopes) name.lexeme = _
    rw [hscopes]
    cases w.scopes with
    | nil => rfl
    | cons scope outer => simp [enter, distance?, List.findIdx?_cons, Scope.declares, seat]

/-- **What was set is seen.**  Of two statements that are bound one behind the other without a report, the second one
finds what the first one has set. -/
theorem sees_of_stmt {ctx : Context} {s next : Stmt Unit} {b b' : Stmt Distance} {w w₁ w₂ : Walk}
    (hp : next.Plain) (hs : stmt ctx s w = .ok b w₁) (hnext : stmt ctx next w₁ = .ok b' w₂)
    (hw : w₂.reports = []) : Sees w.scopes.length b b' := by
  cases s with
  | assign name value site =>
    simp only [stmt] at hs
    obtain ⟨v, site, rfl, hle, hseat⟩ := seat_of_assign hs
    refine ⟨hle, ?_⟩
    intro r hr hname
    have hin := stmt_firstRead ctx next hp hnext hw r hr
    rw [FirstIn, hname, hseat] at hin
    exact hin
  | branch condition whenTrue whenFalse =>
    cases whenFalse with
    | none =>
      simp only [stmt, bind_eq_ok_iff, pure_eq_ok_iff] at hs
      obtain ⟨_, _, -, _, _, -, rfl, -⟩ := hs
      trivial
    | some other =>
      simp only [stmt, bind_eq_ok_iff, pure_eq_ok_iff] at hs
      obtain ⟨_, _, -, _, _, -, _, _, -, rfl, -⟩ := hs
      trivial
  | block body | evaluate e | print e =>
    simp only [stmt, bind_eq_ok_iff, pure_eq_ok_iff] at hs
    obtain ⟨_, _, -, rfl, -⟩ := hs
    trivial
  | define r | giveBack keyword value | loop condition body =>
    simp only [stmt, bind_eq_ok_iff, pure_eq_ok_iff] at hs
    obtain ⟨_, _, -, _, _, -, rfl, -⟩ := hs
    trivial
  | classDef name parent methods =>
    simp only [stmt, bind_eq_ok_iff, pure_eq_ok_iff] at hs
    obtain ⟨_, _, -, _, _, -, _, _, -, rfl, -⟩ := hs
    trivial
  | unknown =>
    simp only [stmt] at hs
    exact absurd hs throw_ne_ok

end Binding
end Offside
