import Offside.Proofs.Machine.Upholding

/-!
# How a call ends

While a statement is executed, the execution comes to other statements of the same body: through blocks,
branches and loops, and not through calls.  Where it comes to a statement that ends abruptly, with a `return` or
with a fault, the statement that it set out from ends in the same way, and nothing else happens but that the
current frame is restored.  Conversely a body that is left with a value is left by a `return` that it came to.

* `Run.Comes`, `Run.ComesAll` — the statements that an execution comes to;
* `Run.Comes.abrupt`, `Run.ComesAll.abrupt` — an abrupt end is the end of the whole;
* `Run.exists_comes`, `Run.exists_comesAll` — a value that is given back stems from a `return`;
* `Run.Starts`, `Run.callClosure_of_starts`, `Run.executeAll_of_comesAll` — what this comes to for a call.
-/

set_option autoImplicit false

namespace Offside

open Binding (Body Distance)
open Step

/-- The machine inside a new frame that the given one encloses. -/
def Machine.inside (m : Machine) (link : FrameId) : Machine :=
  { m with frames := m.frames.add (some link), current := m.frames.size }

/-- The machine at another frame. -/
def Machine.moved (m : Machine) (frame : FrameId) : Machine :=
  { m with current := frame }

theorem Machine.moved_of_current {m : Machine} {frame : FrameId} (h : m.current = frame) : m.moved frame = m := by
  subst h
  rfl

namespace Run

/-! ## The end of an execution -/

/-- How an execution ends. -/
abbrev End := EStateM.Result Fault Machine Flow

/-- The same end, at another frame. -/
def movedTo (frame : FrameId) : End → End
  | .ok flow m => .ok flow (m.moved frame)
  | .error e m => .error e (m.moved frame)

/-- The statements behind are not executed. -/
def IsAbrupt : End → Prop
  | .ok .next _ => False
  | _ => True

theorem movedTo_movedTo (frame other : FrameId) (r : End) : movedTo other (movedTo frame r) = movedTo other r := by
  cases r <;> rfl

theorem IsAbrupt.moved {r : End} (h : IsAbrupt r) (frame : FrameId) : IsAbrupt (movedTo frame r) := by
  cases r with
  | ok flow m =>
    cases flow with
    | next => exact h
    | back v => trivial
  | error e m => trivial

theorem movedTo_execute (limits : Limits) (depth : Nat) (s : Stmt Distance) (m : Machine) :
    movedTo m.current (execute limits depth s m) = execute limits depth s m := by
  have hends := (upholds_execute Rules.free limits depth m .topLevel s m.upheld_free
    (Rules.liberal_free.stmt _ _)).ends
  cases h : execute limits depth s m with
  | ok flow m' =>
    rw [h] at hends
    exact congrArg (EStateM.Result.ok flow) (Machine.moved_of_current hends.1.current)
  | error e m' =>
    rw [h] at hends
    exact congrArg (EStateM.Result.error e) (Machine.moved_of_current hends.current)

/-! ## Lists, blocks and loops -/

section Parts

variable {execute : Stmt Distance → Run Flow} {s : Stmt Distance} {ss : List (Stmt Distance)} {m m₁ m₂ : Machine}

theorem executeAll_of_next (h : execute s m = .ok .next m₁) :
    executeAll execute (s :: ss) m = executeAll execute ss m₁ := by
  rw [executeAll, bind_of_ok h]

theorem executeAll_of_abrupt (h : IsAbrupt (execute s m)) : executeAll execute (s :: ss) m = execute s m := by
  rw [executeAll]
  cases hs : execute s m with
  | ok flow m₁ =>
    rw [bind_of_ok hs]
    cases flow with
    | next =>
      rw [hs] at h
      exact absurd h id
    | back v => rfl
  | error e m₁ => rw [bind_of_error hs]

theorem inFrame_apply (frame : FrameId) (p : Run Flow) (m : Machine) :
    inFrame frame p m = movedTo m.current (p (m.moved frame)) := by
  unfold inFrame Machine.moved
  cases p { m with current := frame } <;> rfl

/-- A block is executed inside a new frame and comes back. -/
theorem executeBlock_apply (execute : Stmt Distance → Run Flow) (body : List (Stmt Distance)) (m : Machine) :
    executeBlock execute body m = movedTo m.current (executeAll execute body (m.inside m.current)) :=
  inFrame_apply m.frames.size (executeAll execute body) { m with frames := m.frames.add (some m.current) }

/-- Whether a condition holds. -/
def holds (evaluate : Expr Distance → Run Value) (condition : Expr Distance) : Run Bool :=
  return (← evaluate condition).isTruthy

theorem ok_of_holds {evaluate : Expr Distance → Run Value} {condition : Expr Distance} {b : Bool}
    (h : holds evaluate condition m = .ok b m₁) :
    ∃ v, evaluate condition m = .ok v m₁ ∧ v.isTruthy = b := by
  obtain ⟨v, m', hv, hb⟩ := ok_of_bind h
  obtain ⟨rfl, rfl⟩ := ok_of_pure hb
  exact ⟨v, hv, rfl⟩

theorem holds_of_ok {evaluate : Expr Distance → Run Value} {condition : Expr Distance} {v : Value}
    (h : evaluate condition m = .ok v m₁) : holds evaluate condition m = .ok v.isTruthy m₁ :=
  bind_of_ok h

variable {test : Run Bool} {body : Run Flow}

/-- A loop is repeated a number of times, each time to the end of its body. -/
inductive Repeats (test : Run Bool) (body : Run Flow) : Nat → Machine → Machine → Prop
  | none (m : Machine) : Repeats test body 0 m m
  | more {n : Nat} {m m₁ m₂ m₃ : Machine} (htest : test m = .ok true m₁) (hbody : body m₁ = .ok .next m₂)
      (h : Repeats test body n m₂ m₃) : Repeats test body (n + 1) m m₃

theorem repeatWhile_of_next {limit : Nat} (htest : test m = .ok true m₁) (hbody : body m₁ = .ok .next m₂) :
    repeatWhile test body (limit + 1) m = repeatWhile test body limit m₂ := by
  rw [repeatWhile, bind_of_ok htest, if_pos rfl, bind_of_ok hbody]

theorem repeatWhile_of_abrupt {limit : Nat} (htest : test m = .ok true m₁) (hbody : IsAbrupt (body m₁)) :
    repeatWhile test body (limit + 1) m = body m₁ := by
  rw [repeatWhile, bind_of_ok htest, if_pos rfl]
  cases hb : body m₁ with
  | ok flow m₂ =>
    rw [bind_of_ok hb]
    cases flow with
    | next =>
      rw [hb] at hbody
      exact absurd hbody id
    | back v => rfl
  | error e m₂ => rw [bind_of_error hb]

theorem Repeats.repeatWhile {n : Nat} (h : Repeats test body n m m₁) (limit : Nat) :
    Run.repeatWhile test body (limit + n) m = Run.repeatWhile test body limit m₁ := by
  induction h with
  | none m => rfl
  | more htest hbody _ ih => rw [← Nat.add_assoc, repeatWhile_of_next htest hbody, ih]

/-- A loop that gives back a value does so in some repetition. -/
theorem repeats_of_back {limit : Nat} {v : Value} (h : Run.repeatWhile test body limit m = .ok (.back v) m₂) :
    ∃ n m' m'', n < limit ∧ Repeats test body n m m' ∧ test m' = .ok true m'' ∧
      body m'' = .ok (.back v) m₂ := by
  induction limit generalizing m with
  | zero => cases h
  | succ limit ih =>
    rw [Run.repeatWhile, bind_eq_ok_iff] at h
    obtain ⟨b, m', htest, h⟩ := h
    cases b with
    | false => cases h
    | true =>
      rw [if_pos rfl, bind_eq_ok_iff] at h
      obtain ⟨flow, m'', hbody, h⟩ := h
      cases flow with
      | next =>
        obtain ⟨n, m₃, m₄, hn, hr, ht, hb⟩ := ih h
        exact ⟨n + 1, m₃, m₄, Nat.succ_lt_succ hn, .more htest hbody hr, ht, hb⟩
      | back v' =>
        obtain ⟨hv, rfl⟩ := ok_of_pure h
        obtain rfl := Flow.back.inj hv
        exact ⟨0, m, m', Nat.succ_pos _, .none m, htest, hbody⟩

end Parts

/-! ## What an execution comes to -/

mutual

/-- While `s` is executed from one machine, nested at most `depth` deep, the execution comes to `t` from another
machine, in the same body. -/
inductive Comes (limits : Limits) : Nat → Stmt Distance → Machine → Nat → Stmt Distance → Machine → Prop
  | here {depth : Nat} {s : Stmt Distance} {m : Machine} : Comes limits depth s m depth s m
  | block {depth depth' : Nat} {body : List (Stmt Distance)} {t : Stmt Distance} {m m' : Machine}
      (h : ComesAll limits depth body (m.inside m.current) depth' t m') :
      Comes limits (depth + 1) (.block body) m depth' t m'
  | whenTrue {depth depth' : Nat} {condition : Expr Distance} {whenTrue t : Stmt Distance}
      {whenFalse : Option (Stmt Distance)} {m m₁ m' : Machine}
      (hc : holds (evaluate limits depth) condition m = .ok true m₁)
      (h : Comes limits depth whenTrue m₁ depth' t m') :
      Comes limits (depth + 1) (.branch condition whenTrue whenFalse) m depth' t m'
  | whenFalse {depth depth' : Nat} {condition : Expr Distance} {whenTrue whenFalse t : Stmt Distance}
      {m m₁ m' : Machine} (hc : holds (evaluate limits depth) condition m = .ok false m₁)
      (h : Comes limits depth whenFalse m₁ depth' t m') :
      Comes limits (depth + 1) (.branch condition whenTrue (some whenFalse)) m depth' t m'
  | loop {depth depth' n : Nat} {condition : Expr Distance} {body t : Stmt Distance} {m m₁ m₂ m' : Machine}
      (hr : Repeats (holds (evaluate limits depth) condition) (execute limits depth body) n m m₁)
      (hn : n < limits.repetitions) (hc : holds (evaluate limits depth) condition m₁ = .ok true m₂)
      (h : Comes limits depth body m₂ depth' t m') :
      Comes limits (depth + 1) (.loop condition body) m depth' t m'

/-- The same of several statements, one behind the other. -/
inductive ComesAll (limits : Limits) :
    Nat → List (Stmt Distance) → Machine → Nat → Stmt Distance → Machine → Prop
  | first {depth depth' : Nat} {s t : Stmt Distance} {ss : List (Stmt Distance)} {m m' : Machine}
      (h : Comes limits depth s m depth' t m') : ComesAll limits depth (s :: ss) m depth' t m'
  | later {depth depth' : Nat} {s t : Stmt Distance} {ss : List (Stmt Distance)} {m m₁ m' : Machine}
      (hs : execute limits depth s m = .ok .next m₁) (h : ComesAll limits depth ss m₁ depth' t m') :
      ComesAll limits depth (s :: ss) m depth' t m'

end

theorem current_of_holds {limits : Limits} {depth : Nat} {condition : Expr Distance} {b : Bool}
    {m m₁ : Machine} (h : holds (evaluate limits depth) condition m = .ok b m₁) : m₁.current = m.current := by
  obtain ⟨v, hv, -⟩ := ok_of_holds h
  exact current_of_evaluate hv

theorem current_of_repeats {limits : Limits} {depth n : Nat} {condition : Expr Distance} {body : Stmt Distance}
    {m m₁ : Machine}
    (h : Repeats (holds (evaluate limits depth) condition) (execute limits depth body) n m m₁) :
    m₁.current = m.current := by
  induction h with
  | none m => rfl
  | more htest hbody _ ih => exact ih.trans ((current_of_execute hbody).trans (current_of_holds htest))

theorem execute_branch (limits : Limits) (depth : Nat) (condition : Expr Distance) (whenTrue : Stmt Distance)
    (whenFalse : Option (Stmt Distance)) :
    execute limits (depth + 1) (.branch condition whenTrue whenFalse) =
      evaluate limits depth condition >>= fun v =>
        if v.isTruthy then execute limits depth whenTrue
        else match whenFalse with
          | some s => execute limits depth s
          | none => pure .next :=
  rfl

mutual

/-- **An abrupt end is the end of the whole.**  Where an execution comes to a statement that ends with a value
to give back or with a fault, it ends so itself, in the machine that is left there. -/
theorem Comes.abrupt {limits : Limits} {depth depth' : Nat} {s t : Stmt Distance} {m m' : Machine}
    (h : Comes limits depth s m depth' t m') (ht : IsAbrupt (execute limits depth' t m')) :
    execute limits depth s m = movedTo m.current (execute limits depth' t m') :=
  match h with
  | .here => (movedTo_execute limits depth s m).symm
  | @Comes.block _ depth depth' body t m m' h => by
    show executeBlock (execute limits depth) body m = _
    rw [executeBlock_apply, ComesAll.abrupt h ht, movedTo_movedTo]
  | @Comes.whenTrue _ depth depth' condition whenTrue t whenFalse m m₁ m' hc h => by
    obtain ⟨v, hv, hb⟩ := ok_of_holds hc
    rw [execute_branch, bind_of_ok hv, if_pos hb, Comes.abrupt h ht, current_of_evaluate hv]
  | @Comes.whenFalse _ depth depth' condition whenTrue whenFalse t m m₁ m' hc h => by
    obtain ⟨v, hv, hb⟩ := ok_of_holds hc
    rw [execute_branch, bind_of_ok hv, if_neg (by rw [hb]; exact Bool.false_ne_true)]
    simp only
    rw [Comes.abrupt h ht, current_of_evaluate hv]
  | @Comes.loop _ depth depth' n condition body t m m₁ m₂ m' hr hn hc h => by
    have hlimit : limits.repetitions = limits.repetitions - n - 1 + 1 + n := by omega
    have hbody := Comes.abrupt h ht
    show repeatWhile (holds (evaluate limits depth) condition) (execute limits depth body) limits.repetitions m = _
    rw [hlimit, hr.repeatWhile, repeatWhile_of_abrupt hc (by rw [hbody]; exact ht.moved _), hbody,
      current_of_holds hc, current_of_repeats hr]

theorem ComesAll.abrupt {limits : Limits} {depth depth' : Nat} {ss : List (Stmt Distance)} {t : Stmt Distance}
    {m m' : Machine} (h : ComesAll limits depth ss m depth' t m')
    (ht : IsAbrupt (execute limits depth' t m')) :
    executeAll (execute limits depth) ss m = movedTo m.current (execute limits depth' t m') :=
  match h with
  | .first h => by
    have hfirst := Comes.abrupt h ht
    rw [executeAll_of_abrupt (by rw [hfirst]; exact ht.moved _), hfirst]
  | .later hs h => by
    rw [executeAll_of_next hs, ComesAll.abrupt h ht, current_of_execute hs]

end

mutual

/-- Whatever an execution comes to is written by the rules by which its body is written. -/
theorem Comes.heeds {R : Rules} {kind : Body} {limits : Limits} {depth depth' : Nat} {s t : Stmt Distance}
    {m m' : Machine} (h : Comes limits depth s m depth' t m') (hs : R.StmtHeeds kind s) : R.StmtHeeds kind t :=
  match h with
  | .here => hs
  | .block h => ComesAll.heed h hs
  | @Comes.whenTrue _ _ _ _ _ _ whenFalse _ _ _ _ h => by
    cases whenFalse with
    | none => exact Comes.heeds h hs
    | some other => exact Comes.heeds h hs.1
  | .whenFalse _ h => Comes.heeds h hs.2
  | .loop _ _ _ h => Comes.heeds h hs

theorem ComesAll.heed {R : Rules} {kind : Body} {limits : Limits} {depth depth' : Nat}
    {ss : List (Stmt Distance)} {t : Stmt Distance} {m m' : Machine}
    (h : ComesAll limits depth ss m depth' t m') (hs : R.StmtsHeed kind ss) : R.StmtHeeds kind t :=
  match h with
  | .first h => Comes.heeds h hs.1
  | .later _ h => ComesAll.heed h hs.2

end

/-! ## Where a value that is given back comes from -/

/-- A `return` that gives back the value. -/
def Returns (limits : Limits) (depth : Nat) (t : Stmt Distance) (m : Machine) (v : Value) : Prop :=
  ∃ keyword value m', t = .giveBack keyword value ∧ execute limits depth t m = .ok (.back v) m'

theorem Returns.abrupt {limits : Limits} {depth : Nat} {t : Stmt Distance} {m : Machine} {v : Value}
    (h : Returns limits depth t m v) : IsAbrupt (execute limits depth t m) := by
  obtain ⟨keyword, value, m', -, hrun⟩ := h
  rw [hrun]
  trivial

theorem exists_comesAll_of {limits : Limits} {depth : Nat}
    (hexec : ∀ (s : Stmt Distance) (m m₁ : Machine) (v : Value), execute limits depth s m = .ok (.back v) m₁ →
      ∃ depth' t m', Comes limits depth s m depth' t m' ∧ Returns limits depth' t m' v)
    {ss : List (Stmt Distance)} {m m₁ : Machine} {v : Value}
    (h : executeAll (execute limits depth) ss m = .ok (.back v) m₁) :
    ∃ depth' t m', ComesAll limits depth ss m depth' t m' ∧ Returns limits depth' t m' v := by
  induction ss generalizing m with
  | nil => cases h
  | cons s ss ih =>
    rw [executeAll, bind_eq_ok_iff] at h
    obtain ⟨flow, m', hs, h⟩ := h
    cases flow with
    | next =>
      obtain ⟨depth', t, m'', hcomes, hreturns⟩ := ih h
      exact ⟨depth', t, m'', .later hs hcomes, hreturns⟩
    | back v' =>
      obtain ⟨hv, rfl⟩ := ok_of_pure h
      obtain rfl := Flow.back.inj hv
      obtain ⟨depth', t, m'', hcomes, hreturns⟩ := hexec s m m' v' hs
      exact ⟨depth', t, m'', .first hcomes, hreturns⟩

/-- **A value that is given back stems from a `return`** to which the execution came. -/
theorem exists_comes {limits : Limits} {depth : Nat} {s : Stmt Distance} {m m₁ : Machine} {v : Value}
    (h : execute limits depth s m = .ok (.back v) m₁) :
    ∃ depth' t m', Comes limits depth s m depth' t m' ∧ Returns limits depth' t m' v := by
  induction depth generalizing s m m₁ v with
  | zero => cases h
  | succ depth ih =>
    cases s with
    | block body =>
      rw [execute, executeStep, executeBlock_apply] at h
      cases hbody : executeAll (execute limits depth) body (m.inside m.current) with
      | ok flow m' =>
        rw [hbody] at h
        cases h
        obtain ⟨depth', t, m'', hcomes, hreturns⟩ := exists_comesAll_of (fun s m m₁ v h => ih h) hbody
        exact ⟨depth', t, m'', .block hcomes, hreturns⟩
      | error e m' =>
        rw [hbody] at h
        cases h
    | branch condition whenTrue whenFalse =>
      rw [execute_branch, bind_eq_ok_iff] at h
      obtain ⟨c, m', hc, h⟩ := h
      have hholds := holds_of_ok hc
      cases hb : c.isTruthy with
      | true =>
        rw [hb] at hholds
        rw [if_pos hb] at h
        obtain ⟨depth', t, m'', hcomes, hreturns⟩ := ih h
        exact ⟨depth', t, m'', .whenTrue hholds hcomes, hreturns⟩
      | false =>
        rw [hb] at hholds
        rw [if_neg (by rw [hb]; exact Bool.false_ne_true)] at h
        cases whenFalse with
        | none => cases h
        | some other =>
          obtain ⟨depth', t, m'', hcomes, hreturns⟩ := ih h
          exact ⟨depth', t, m'', .whenFalse hholds hcomes, hreturns⟩
    | loop condition body =>
      rw [execute, executeStep] at h
      obtain ⟨n, m', m'', hn, hr, ht, hb⟩ := repeats_of_back h
      obtain ⟨depth', t, m₃, hcomes, hreturns⟩ := ih hb
      exact ⟨depth', t, m₃, .loop hr hn ht hcomes, hreturns⟩
    | giveBack keyword value => exact ⟨depth + 1, _, m, .here, keyword, value, m₁, rfl, h⟩
    | define r =>
      simp only [execute, executeStep, bind_eq_ok_iff, pure_eq_ok_iff] at h
      obtain ⟨_, _, _, _, _, _, _, _, _, hflow, _⟩ := h
      cases hflow
    | classDef name parent methods =>
      simp only [execute, executeStep, bind_eq_ok_iff, pure_eq_ok_iff] at h
      obtain ⟨_, _, _, hflow, _⟩ := h
      cases hflow
    | evaluate e =>
      simp only [execute, executeStep, bind_eq_ok_iff, pure_eq_ok_iff] at h
      obtain ⟨_, _, _, hflow, _⟩ := h
      cases hflow
    | print e =>
      simp only [execute, executeStep, bind_eq_ok_iff, pure_eq_ok_iff] at h
      obtain ⟨_, _, _, _, _, _, hflow, _⟩ := h
      cases hflow
    | assign name value site =>
      simp only [execute, executeStep, bind_eq_ok_iff, pure_eq_ok_iff] at h
      obtain ⟨_, _, _, _, _, _, hflow, _⟩ := h
      cases hflow
    | unknown => cases h

theorem exists_comesAll {limits : Limits} {depth : Nat} {ss : List (Stmt Distance)} {m m₁ : Machine} {v : Value}
    (h : executeAll (execute limits depth) ss m = .ok (.back v) m₁) :
    ∃ depth' t m', ComesAll limits depth ss m depth' t m' ∧ Returns limits depth' t m' v :=
  exists_comesAll_of (fun _ _ _ _ => exists_comes) h

/-! ## Calls -/

/-- Makes the frame of a call and binds the parameters in it. -/
def enter (f : Closure) (arguments : List Value) : Run FrameId := do
  let frame ← newFrame f.frame
  bindParams frame f.routine.params arguments
  return frame

/-- The call begins in the machine `start`: at its frame, with the parameters bound. -/
def Starts (f : Closure) (arguments : List Value) (m start : Machine) : Prop :=
  ∃ frame m₁, enter f arguments m = .ok frame m₁ ∧ start = m₁.moved frame

section Calls

variable {limits : Limits} {depth : Nat} {f : Closure} {arguments : List Value} {m m₁ start : Machine}

theorem exists_bindParams (frame : FrameId) (params : List Token) (arguments : List Value) (m : Machine) :
    ∃ m₁, bindParams frame params arguments m = .ok () m₁ ∧ m₁.current = m.current := by
  induction params generalizing arguments m with
  | nil => exact ⟨m, rfl, rfl⟩
  | cons param params ih =>
    cases arguments with
    | nil => exact ⟨m, rfl, rfl⟩
    | cons argument arguments =>
      exact ih arguments { m with frames := m.frames.define frame param.lexeme argument }

theorem exists_starts (f : Closure) (arguments : List Value) (m : Machine) : ∃ start, Starts f arguments m start := by
  obtain ⟨m₁, hbind, -⟩ := exists_bindParams m.frames.size f.routine.params arguments
    { m with frames := m.frames.add (some f.frame) }
  have hframe : newFrame f.frame m = .ok m.frames.size { m with frames := m.frames.add (some f.frame) } := rfl
  refine ⟨m₁.moved m.frames.size, m.frames.size, m₁, ?_, rfl⟩
  rw [enter, bind_of_ok hframe, bind_of_ok hbind]
  rfl

/-- A call executes the body from where it begins, and comes back. -/
theorem callClosure_of_starts (h : Starts f arguments m start) (execute : Stmt Distance → Run Flow) :
    callClosure execute f arguments m =
      match movedTo m.current (executeAll execute f.routine.body start) with
      | .ok flow m₂ =>
        (if f.isInitializer then readAt f.frame 0 "this"
          else match flow with
            | .back value => pure value
            | .next => pure .null) m₂
      | .error e m₂ => .error e m₂ := by
  obtain ⟨frame, m₁, henter, rfl⟩ := h
  obtain ⟨frame', m', hframe, henter⟩ := ok_of_bind henter
  obtain ⟨⟨⟩, m'', hbind, hpure⟩ := ok_of_bind henter
  obtain ⟨rfl, rfl⟩ := ok_of_pure hpure
  have hcurrent : m''.current = m.current := by
    obtain ⟨m₂, hbind', hcurrent⟩ := exists_bindParams frame' f.routine.params arguments m'
    rw [hbind] at hbind'
    cases hbind'
    cases hframe
    exact hcurrent
  rw [callClosure, bind_of_ok hframe, bind_of_ok hbind, ← hcurrent]
  have hbody := inFrame_apply frame' (executeAll execute f.routine.body) m''
  cases hend : movedTo m''.current (executeAll execute f.routine.body (m''.moved frame')) with
  | ok flow m₂ => exact bind_of_ok (hbody.trans hend)
  | error e m₂ => exact bind_of_error (hbody.trans hend)

theorem execute_giveBack (limits : Limits) (depth : Nat) (keyword : Token) (value : Option (Expr Distance)) :
    execute limits (depth + 1) (.giveBack keyword value) =
      evaluate? (evaluate limits depth) value >>= fun v => pure (.back v) :=
  rfl

/-- A body that comes to a `return` ends there. -/
theorem executeAll_of_comesAll {depth' : Nat} {keyword : Token} {value : Option (Expr Distance)} {v : Value}
    {ss : List (Stmt Distance)} {m₂ : Machine}
    (h : ComesAll limits depth ss start (depth' + 1) (.giveBack keyword value) m₁)
    (hv : evaluate? (evaluate limits depth') value m₁ = .ok v m₂) :
    executeAll (execute limits depth) ss start = .ok (.back v) (m₂.moved start.current) := by
  have hreturn : execute limits (depth' + 1) (.giveBack keyword value) m₁ = .ok (.back v) m₂ := by
    rw [execute_giveBack, bind_of_ok hv]
    rfl
  rw [h.abrupt (by rw [hreturn]; trivial), hreturn]
  rfl

/-- How the call of a function ends that begins in the machine `start`. -/
structure EndsCall (limits : Limits) (depth : Nat) (f : Closure) (arguments : List Value) (m start : Machine) :
    Prop where
  /-- A `return` to which the body comes ends the call, with its value. -/
  returned : f.isInitializer = false → ∀ depth' keyword value m₁ v m₂,
    ComesAll limits depth f.routine.body start (depth' + 1) (.giveBack keyword value) m₁ →
    evaluate? (evaluate limits depth') value m₁ = .ok v m₂ →
    callClosure (execute limits depth) f arguments m = .ok v (m₂.moved m.current)
  /-- The value of a call is that of a `return` to which the body comes, or null where its end is reached. -/
  yielded : f.isInitializer = false → ∀ v m', callClosure (execute limits depth) f arguments m = .ok v m' →
    (∃ depth' keyword value m₁ m₂,
      ComesAll limits depth f.routine.body start (depth' + 1) (.giveBack keyword value) m₁ ∧
      evaluate? (evaluate limits depth') value m₁ = .ok v m₂) ∨
    v = .null ∧ ∃ m₁, executeAll (execute limits depth) f.routine.body start = .ok .next m₁
  /-- A `return` to which an initializer comes has no value, and ends the call with what `this` is bound to. -/
  unvalued : f.isInitializer = true → ∀ depth' keyword value m₁,
    ComesAll limits depth f.routine.body start (depth' + 1) (.giveBack keyword value) m₁ →
    value = none ∧
      callClosure (execute limits depth) f arguments m = readAt f.frame 0 "this" (m₁.moved m.current)
  /-- What the body of an initializer gives back is null, so that nothing is lost. -/
  discarded : f.isInitializer = true → ∀ v m₁,
    executeAll (execute limits depth) f.routine.body start = .ok (.back v) m₁ → v = .null
  /-- An initializer yields the instance to which it was bound. -/
  bound : f.isInitializer = true → ∀ this, (m.frames.bindingsOf f.frame).get? "this" = some this →
    ∀ v m', callClosure (execute limits depth) f arguments m = .ok v m' → v = this

end Calls

end Run
end Offside
