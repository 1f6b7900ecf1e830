import Offside.Proofs.Machine.Inspection
import Offside.Proofs.Machine.Returns

/-!
# What `set` leaves to be read

A value that `set` puts somewhere is found there by the read that its name is bound to: in the current frame, in an
outer one, or in the global frame.  Blocks that are entered on the way do not hide it.  It does not matter what was
evaluated before: calls come back to the current frame, and a frame keeps its place in the chain.

* `Machine.Holds`, `Machine.inBlocks` — a value under a name where a read finds it, and machines inside new frames;
* `Run.holds_of_assign`, `Run.lookUp_of_holds` — what is assigned is held, and what is held is read;
* `Run.execute_of_unread` — a statement does begin with the read that comes first in it;
* `Run.SeenBy`, `Run.AllSeen` — what was set is read by the next statement: two statements, and a list of them;
* `Run.keeps_watched` — a condition that tidy machines satisfy holds at every node that a run comes to.
-/

set_option autoImplicit false

namespace Offside

open Binding (Distance Node StmtWithin StmtsWithin seat)
open Step

/-! ## Values under names -/

namespace Frames

variable {frames frames' : Frames Value} {id place : FrameId} {name : String} {v : Value}

theorem ancestor?_grow {d : Nat} (h : frames.ancestor? d id = some place) (hg : frames.Grows frames') :
    frames'.ancestor? d id = some place := by
  induction d generalizing id with
  | zero =>
    unfold ancestor? at h ⊢
    split at h
    · next hlt =>
      obtain ⟨frame', hframe', -⟩ := hg id _ (Array.getElem?_eq_getElem hlt)
      rw [if_pos (Array.getElem?_eq_some_iff.1 hframe').1]
      exact h
    · cases h
  | succ d ih =>
    unfold ancestor? at h ⊢
    split at h
    · cases h
    · next frame hframe =>
      obtain ⟨frame', hframe', henc, -⟩ := hg id frame hframe
      split at h
      · cases h
      · next outer houter =>
        simp only [hframe', henc.trans houter]
        exact ih h

theorem lt_of_ancestor? {d : Nat} (h : frames.ancestor? d id = some place) : place < frames.size := by
  induction d generalizing id with
  | zero =>
    unfold ancestor? at h
    split at h
    · obtain rfl := Option.some.inj h
      assumption
    · cases h
  | succ d ih =>
    unfold ancestor? at h
    split at h
    · cases h
    · split at h
      · cases h
      · exact ih h

/-- What is bound in a frame stays bound when a frame is added. -/
theorem get?_bindingsOf_add (h : (frames.bindingsOf place).get? name = some v) (enclosing : Option FrameId) :
    ((frames.add enclosing).bindingsOf place).get? name = some v := by
  cases hframe : frames[place]? with
  | none =>
    rw [bindingsOf, hframe] at h
    cases h
  | some frame =>
    have hlt := (Array.getElem?_eq_some_iff.1 hframe).1
    rwa [bindingsOf, getElem?_add_of_lt hlt]

theorem get?_bindingsOf_define (h : place < frames.size) (name : String) (v : Value) :
    ((frames.define place name v).bindingsOf place).get? name = some v := by
  rw [bindingsOf, getElem?_define_self (Array.getElem?_eq_getElem h)]
  exact Bindings.get?_put_self name v _

end Frames

namespace Machine

/-- The value stands under the name where a read with the given distance finds it. -/
def Holds (m : Machine) (name : String) (v : Value) : Distance → Prop
  | none => (m.frames.bindingsOf globalFrame).get? name = some v
  | some d => ∃ place, m.frames.ancestor? d m.current = some place ∧
      (m.frames.bindingsOf place).get? name = some v

/-- The machine inside a number of new frames, one in the other. -/
def inBlocks (m : Machine) : Nat → Machine
  | 0 => m
  | k + 1 => (m.inside m.current).inBlocks k

variable {m : Machine} {name : String} {v : Value} {site : Distance}

/-- A block does not hide what is held outside. -/
theorem Holds.inside (h : m.Holds name v site) : (m.inside m.current).Holds name v (site.map (· + 1)) := by
  cases site with
  | none => exact Frames.get?_bindingsOf_add h (some m.current)
  | some d =>
    obtain ⟨place, hplace, hget⟩ := h
    refine ⟨place, ?_, Frames.get?_bindingsOf_add hget (some m.current)⟩
    show (m.frames.add (some m.current)).ancestor? (d + 1) m.frames.size = some place
    simp only [Frames.ancestor?, Frames.getElem?_add_size]
    exact Frames.ancestor?_grow hplace (Frames.grows_add _ _)

theorem Holds.inBlocks (h : m.Holds name v site) (k : Nat) :
    (m.inBlocks k).Holds name v (site.map (· + k)) := by
  induction k generalizing m site with
  | zero =>
    rw [show (fun d : Nat => d + 0) = id from rfl, Option.map_id]
    exact h
  | succ k ih =>
    have hmore := ih h.inside
    rw [Option.map_map] at hmore
    have hshift : ((· + k) ∘ (· + 1) : Nat → Nat) = (· + (k + 1)) := by
      funext d
      show d + 1 + k = d + (k + 1)
      omega
    rwa [hshift] at hmore

end Machine

namespace Run

variable {G : List String} {L : Ledger} {limits : Limits} {depth n : Nat} {m : Machine}

/-- What is held is read. -/
theorem lookUp_of_holds {t : Token} {v : Value} {site : Distance} (h : m.Holds t.lexeme v site) :
    lookUp t site m = .ok v m := by
  cases site with
  | none =>
    show readGlobal t m = .ok v m
    simp only [readGlobal]
    rw [h]
  | some d =>
    obtain ⟨place, hplace, hget⟩ := h
    show readAt m.current d t.lexeme m = .ok v m
    simp only [readAt, Frames.getAt, hplace, hget]

/-- What is assigned is held, with as many scopes open as the current frame is deep. -/
theorem holds_of_assign (hm : m.Tidy G L) (hdeep : m.frames.Deep m.current n) {site : Distance}
    (hsite : ∀ d ∈ site, d ≤ n) (name : String) (v : Value) :
    ∃ m', assign name v site m = .ok () m' ∧ m'.Holds name v (seat n site) := by
  cases site with
  | none =>
    refine ⟨{ m with frames := m.frames.define m.current name v }, rfl, ?_⟩
    have hget := Frames.get?_bindingsOf_define (hdeep.lt hm.top_lt) name v
    cases n with
    | zero =>
      -- outside all scopes the current frame is the global one
      have htop : m.current = Machine.globalFrame := hdeep
      rw [htop] at hget ⊢
      exact hget
    | succ n =>
      refine ⟨m.current, if_pos ?_, hget⟩
      rw [Frames.size_define]
      exact hdeep.lt hm.top_lt
  | some d =>
    have hd : d ≤ (List.replicate n ([] : Binding.Scope)).length := by
      rw [List.length_replicate]
      exact hsite d rfl
    obtain ⟨place, hplace⟩ := Frames.exists_ancestor? hdeep hm.top_lt hd
    have hget := Frames.get?_bindingsOf_define (Frames.lt_of_ancestor? hplace) name v
    refine ⟨{ m with frames := m.frames.define place name v }, ?_, ?_⟩
    · show defineAt d name v m = _
      simp only [defineAt, hplace]
    · rw [seat]
      split
      · next htop =>
        -- the distance leads to the global frame
        have hglobal := Frames.ancestor?_of_mirrors hdeep hm.top_lt
        rw [List.length_replicate, ← htop, hplace] at hglobal
        obtain rfl := Option.some.inj hglobal
        exact hget
      · exact ⟨place, Frames.ancestor?_grow hplace (Frames.grows_define _ _ _ _), hget⟩

/-! ## The read that comes first -/

/-- The run ends because a bound is exceeded. -/
def IsBounded {α : Type} : EStateM.Result Fault Machine α → Prop
  | .error .overflow _ | .error .exhausted _ => True
  | _ => False

theorem isBounded_movedTo {r : End} (h : IsBounded r) (frame : FrameId) : IsBounded (movedTo frame r) := by
  cases r with
  | ok flow m => exact absurd h id
  | error e m => cases e <;> exact h

section FirstReads

variable {α β : Type} {fault : Fault} {m' : Machine}

theorem bind_of_unread {p : Run α} (f : α → Run β) (h : p m = .error fault m' ∨ IsBounded (p m)) :
    (p >>= f) m = .error fault m' ∨ IsBounded ((p >>= f) m) := by
  rcases h with h | h
  · exact Or.inl (bind_of_error h)
  · cases hp : p m with
    | ok a m₁ =>
      rw [hp] at h
      exact absurd h id
    | error e m₁ =>
      rw [bind_of_error hp]
      rw [hp] at h
      cases e with
      | overflow | exhausted => exact Or.inr trivial
      | _ => exact absurd h id

/-- **An expression begins with its first read.**  Where the read ends with a fault, so does the evaluation, and
nothing has happened before, unless a bound is exceeded. -/
theorem evaluate_of_unread {e : Expr Distance} {r : FirstRead} (hr : e.firstRead? = some r)
    (h : lookUp r.token r.site m = .error fault m') :
    evaluate limits depth e m = .error fault m' ∨ IsBounded (evaluate limits depth e m) := by
  induction depth generalizing e with
  | zero => exact Or.inr trivial
  | succ depth ih =>
    cases e with
    | name token site =>
      obtain rfl := Option.some.inj hr
      exact Or.inl h
    | group inner => exact ih hr
    | unary operator operand => exact bind_of_unread _ (ih hr)
    | binary left operator right => exact bind_of_unread _ (ih hr)
    | logical left operator right => exact bind_of_unread _ (ih hr)
    | setField object field value => exact bind_of_unread _ (ih hr)
    | getField object field => exact bind_of_unread _ (ih hr)
    | call callee paren arguments => exact bind_of_unread _ (ih hr)
    | literal | thisRef | superRef | unknown => cases hr

theorem evaluate?_of_unread {value : Option (Expr Distance)} {r : FirstRead}
    (hr : value.bind Expr.firstRead? = some r) (h : lookUp r.token r.site m = .error fault m') :
    evaluate? (evaluate limits depth) value m = .error fault m' ∨
      IsBounded (evaluate? (evaluate limits depth) value m) := by
  cases value with
  | none => cases hr
  | some e => exact evaluate_of_unread hr h

/-- The same of a statement that begins with its read before a block is entered. -/
theorem execute_of_unread_here {s : Stmt Distance} {r : FirstRead} (hr : s.firstRead? = some r)
    (hblocks : r.blocks = 0) (h : lookUp r.token r.site m = .error fault m') :
    execute limits depth s m = .error fault m' ∨ IsBounded (execute limits depth s m) := by
  cases depth with
  | zero => exact Or.inr trivial
  | succ depth =>
    cases s with
    | block body =>
      obtain ⟨r', -, rfl⟩ := Option.map_eq_some_iff.1 hr
      cases hblocks
    | classDef name parent methods =>
      obtain ⟨p, rfl, rfl⟩ := Option.map_eq_some_iff.1 hr
      have hname : Expr.firstRead? (.name p.1 p.2) = some ⟨0, p.1, p.2⟩ := rfl
      exact bind_of_unread _ (bind_of_unread _ (bind_of_unread _ (evaluate_of_unread hname h)))
    | evaluate e => exact bind_of_unread _ (evaluate_of_unread hr h)
    | print e => exact bind_of_unread _ (evaluate_of_unread hr h)
    | branch condition whenTrue whenFalse => exact bind_of_unread _ (evaluate_of_unread hr h)
    | loop condition body =>
      show repeatWhile _ _ limits.repetitions m = _ ∨ IsBounded (repeatWhile _ _ limits.repetitions m)
      cases limits.repetitions with
      | zero => exact Or.inr trivial
      | succ limit => exact bind_of_unread _ (bind_of_unread _ (evaluate_of_unread hr h))
    | giveBack keyword value => exact bind_of_unread _ (evaluate?_of_unread hr h)
    | assign name value site => exact bind_of_unread _ (evaluate?_of_unread hr h)
    | define | unknown => cases hr

/-- A block ends as its first statement does, if that is a fault. -/
theorem execute_block_of_unread {s : Stmt Distance} (rest : List (Stmt Distance))
    (h : execute limits depth s (m.inside m.current) = .error fault m' ∨
      IsBounded (execute limits depth s (m.inside m.current))) :
    execute limits (depth + 1) (.block (s :: rest)) m = .error fault (m'.moved m.current) ∨
      IsBounded (execute limits (depth + 1) (.block (s :: rest)) m) := by
  have hblock : execute limits (depth + 1) (.block (s :: rest)) m =
      movedTo m.current (executeAll (execute limits depth) (s :: rest) (m.inside m.current)) :=
    executeBlock_apply (execute limits depth) (s :: rest) m
  have hall : executeAll (execute limits depth) (s :: rest) (m.inside m.current) = .error fault m' ∨
      IsBounded (executeAll (execute limits depth) (s :: rest) (m.inside m.current)) := by
    rw [executeAll]
    exact bind_of_unread _ h
  rw [hblock]
  exact hall.imp (congrArg (movedTo m.current)) fun hbounded => isBounded_movedTo hbounded m.current

/-- **A statement begins with its first read.**  Where the read ends with a fault, so does the execution, and nothing
has happened before but that blocks were entered, unless a bound is exceeded. -/
theorem execute_of_unread {s : Stmt Distance} {r : FirstRead} (hr : s.firstRead? = some r)
    (h : lookUp r.token r.site (m.inBlocks r.blocks) = .error fault m') :
    execute limits depth s m = .error fault (m'.moved m.current) ∨ IsBounded (execute limits depth s m) := by
  induction depth generalizing s r m with
  | zero => exact Or.inr trivial
  | succ depth ih =>
    rcases Stmt.firstRead?_cases hr with hblocks | ⟨first, rest, r', rfl, hr', rfl⟩
    · rw [hblocks, Machine.inBlocks] at h
      -- outside blocks the execution comes back by itself
      refine (execute_of_unread_here hr hblocks h).imp_left fun hend => ?_
      rw [← movedTo_execute, hend]
      rfl
    · have hblock := execute_block_of_unread rest (ih hr' h)
      exact hblock

end FirstReads

/-! ## One statement behind the other -/

/-- If the value of a `set` is evaluated without an error, then the `set` goes on to the next statement, and the read
with which this one begins, if it is a read of the same name, yields the value. -/
def SeenBy (limits : Limits) (depth : Nat) (name : Token) (value : Option (Expr Distance)) (site : Distance)
    (next : Stmt Distance) (m : Machine) : Prop :=
  ∀ v m₁, evaluate? (evaluate limits depth) value m = .ok v m₁ →
    ∃ m₂, execute limits (depth + 1) (.assign name value site) m = .ok .next m₂ ∧
      ∀ r ∈ next.firstRead?, r.token.lexeme = name.lexeme →
        lookUp r.token r.site (m₂.inBlocks r.blocks) = .ok v (m₂.inBlocks r.blocks)

/-- Whenever a `set` in the list is come to, the next statement sees what is set. -/
def AllSeen (limits : Limits) (depth : Nat) (ss : List (Stmt Distance)) (start : Machine) : Prop :=
  ∀ before name value site next after m, ss = before ++ .assign name value site :: next :: after →
    executeAll (execute limits (depth + 1)) before start = .ok .next m →
      SeenBy limits depth name value site next m

theorem seenBy_of_within (limits : Limits) (depth : Nat) {name : Token} {value : Option (Expr Distance)}
    {site : Distance} {next : Stmt Distance} {after : List (Stmt Distance)} (hm : m.Tidy G L)
    (hdeep : m.frames.Deep m.current n) (h : StmtsWithin G n (.assign name value site :: next :: after)) :
    SeenBy limits depth name value site next m := by
  obtain ⟨-, hsees, -⟩ := h
  obtain ⟨hsite, hread⟩ := hsees next rfl
  intro v m₁ hv
  -- whatever was called, evaluating the value has come back to a frame as deep as before
  obtain ⟨L₁, h₁, -⟩ := (keeps_evaluate? (keeps_evaluate G limits depth) value hm).ends.value_of_ok hv
  obtain ⟨m₂, hassign, hholds⟩ := holds_of_assign h₁.tidy (h₁.deep hdeep) hsite name.lexeme v
  refine ⟨m₂, ?_, ?_⟩
  · rw [execute, executeStep, bind_of_ok hv, bind_of_ok hassign]
    rfl
  · intro r hr hname
    have hheld := hholds.inBlocks r.blocks
    rw [← hread r hr hname, ← hname] at hheld
    exact lookUp_of_holds hheld

theorem allSeen_of_within (limits : Limits) (depth : Nat) {ss : List (Stmt Distance)} (hm : m.Tidy G L)
    (hdeep : m.frames.Deep m.current n) (h : StmtsWithin G n ss) : AllSeen limits depth ss m := by
  rintro before name value site next after m' rfl hbefore
  obtain ⟨hfront, hpair⟩ := h.of_append
  obtain ⟨L', h', -⟩ :=
    (keeps_executeAll (keeps_execute G limits (depth + 1)) before hm hdeep hfront).ends.value_of_ok hbefore
  exact seenBy_of_within limits depth h'.tidy (h'.deep hdeep) hpair

/-! ## Calls -/

theorem keeps_enter {f : Closure} {arguments : List Value} (hm : m.Tidy G L) (hdeep : m.frames.Deep f.frame n)
    (hparams : ∀ t ∈ f.routine.params, Bindable t.lexeme) (hargs : ∀ v ∈ arguments, v.In L) :
    Keeps G L m (enter f arguments) (enter f arguments) fun _ frame frames => frames.Deep frame (n + 1) := by
  refine .bind (keeps_newFrame hm hdeep) fun L₁ frame m₁ h₁ hframe => ?_
  refine .bind (keeps_bindParams f.routine.params arguments h₁.tidy hframe hparams
    fun v hv => (hargs v hv).mono h₁.more) fun L₂ _ m₂ h₂ _ => ?_
  exact .pure h₂.tidy (hframe.grow h₂.grows)

/-- In the body of a function that is called, what is set is seen. -/
theorem allSeen_of_starts (limits : Limits) (depth : Nat) {f : Closure} {arguments : List Value} {start : Machine}
    (hm : m.Tidy G L) (hf : (Value.function f).In L) (hargs : ∀ v ∈ arguments, v.In L)
    (h : Starts f arguments m start) : AllSeen limits depth f.routine.body start := by
  obtain ⟨k, hdeep, hwithin⟩ := hm.within_of_function hf
  obtain ⟨hparams, hbody⟩ := Binding.routineWithin_iff.1 hwithin
  obtain ⟨frame, m₁, henter, rfl⟩ := h
  obtain ⟨L₁, h₁, hframe⟩ := (keeps_enter hm hdeep hparams hargs).ends.value_of_ok henter
  exact allSeen_of_within limits depth (h₁.tidy.of_eq rfl rfl rfl) hframe hbody

/-! ## Every node -/

theorem Keeps.guarded {α : Type} {p q : Run α} {post : Ledger → α → Frames Value → Prop}
    {condition : Machine → Prop} (alarm : Fault) (hm : condition m) (h : Keeps G L m p q post) :
    Keeps G L m (guarded condition alarm p) q post :=
  ⟨(if_pos hm).trans h.same, h.ends⟩

variable {condition : Node → Machine → Prop}

/-- **Tidy machines under watch.**  A condition that tidy machines satisfy, at every expression and at every statement
that keeps to the names as deep as the current frame, holds at every node that a run comes to. -/
theorem keeps_watched
    (hexpression : ∀ (L : Ledger) (m : Machine) (e : Expr Distance), m.Tidy G L → condition (.expression e) m)
    (hstatement : ∀ (L : Ledger) (m : Machine) (n : Nat) (s : Stmt Distance), m.Tidy G L →
      m.frames.Deep m.current n → StmtWithin G n s → condition (.statement s) m)
    (alarm : Fault) (limits : Limits) (depth : Nat) :
    EvaluatesTidily G (watchedEvaluate condition alarm limits depth) (evaluate limits depth) ∧
      ExecutesTidily G (watchedExecute condition alarm limits depth) (execute limits depth) := by
  induction depth with
  | zero =>
    constructor
    · intro L m e hm
      exact (keeps_throw hm .overflow).guarded alarm (hexpression L m e hm)
    · intro L m n s hm hdeep h
      exact (keeps_throw hm .overflow).guarded alarm (hstatement L m n s hm hdeep h)
  | succ depth ih =>
    obtain ⟨heval, hexec⟩ := ih
    constructor
    · intro L m e hm
      exact (keeps_evaluateStep heval hexec L m e hm).guarded alarm (hexpression L m e hm)
    · intro L m n s hm hdeep h
      exact (keeps_executeStep limits heval hexec L m n s hm hdeep h).guarded alarm
        (hstatement L m n s hm hdeep h)

/-- Whole programs, at the global frame. -/
theorem keeps_watchedProgram
    (hexpression : ∀ (L : Ledger) (m : Machine) (e : Expr Distance), m.Tidy G L → condition (.expression e) m)
    (hstatement : ∀ (L : Ledger) (m : Machine) (n : Nat) (s : Stmt Distance), m.Tidy G L →
      m.frames.Deep m.current n → StmtWithin G n s → condition (.statement s) m)
    (alarm : Fault) (limits : Limits) (ss : List (Stmt Distance)) (hm : m.Tidy G L)
    (hcurrent : m.current = Machine.globalFrame) (h : StmtsWithin G 0 ss) :
    Keeps G L m (watchedProgram condition alarm limits ss) (program limits ss) fun _ _ _ => True := by
  induction ss generalizing L m with
  | nil => exact .pure hm trivial
  | cons s ss ih =>
    obtain ⟨hs, -, hss⟩ := h
    have hexec := (keeps_watched hexpression hstatement alarm limits limits.nesting).2
    refine .bind (hexec L m 0 s hm hcurrent hs) fun L₁ _ m₁ h₁ _ => ?_
    exact ih h₁.tidy (h₁.current.trans hcurrent) hss

end Run
end Offside
