import Mathlib.Logic.Equiv.Basic
import Offside.Proofs.Machine.Padding

/-!
# Other identities

What a program does does not depend on the serial numbers under which its functions and classes were made.  Take two
machines that hold the same but for a permutation of these numbers, and for the order in which the names of a frame
were bound.  Whatever is run on both of them goes alike, and leaves machines that are again the same in this way.

* `Value.Renumbered`, `Machine.Renumbered` — values and machines that are the same up to serial numbers;
* `Run.Matches` — steps that go alike on such machines, with one lemma for each step of the machine.
-/

set_option autoImplicit false

namespace Offside

open Step (Pairs)

/-! ## Values -/

/-- A function under another serial number. -/
def Closure.renumber (σ : Equiv.Perm Nat) (f : Closure) : Closure :=
  { f with serial := σ f.serial }

/-- The same methods under other serial numbers. -/
structure Class.Layer.Renumbered (σ : Equiv.Perm Nat) (l l' : Class.Layer) : Prop where
  serial : l'.serial = σ l.serial
  name : l'.name = l.name
  methods : ∀ name, l'.methods.get? name = (l.methods.get? name).map (Closure.renumber σ)

/-- Classes that are the same up to serial numbers, and their ancestors too. -/
def Class.Renumbered (σ : Equiv.Perm Nat) (c c' : Class) : Prop :=
  List.Forall₂ (Class.Layer.Renumbered σ) c.lineage c'.lineage

/-- Values that are the same up to serial numbers. -/
inductive Value.Renumbered (σ : Equiv.Perm Nat) : Value → Value → Prop
  | null : Renumbered σ .null .null
  | boolean (b : Bool) : Renumbered σ (.boolean b) (.boolean b)
  | number (n : Number) : Renumbered σ (.number n) (.number n)
  | text (s : String) : Renumbered σ (.text s) (.text s)
  | function (f : Closure) : Renumbered σ (.function f) (.function (f.renumber σ))
  | native (serial : Nat) (f : Native) : Renumbered σ (.native serial f) (.native (σ serial) f)
  | classValue {c c' : Class} (h : c.Renumbered σ c') : Renumbered σ (.classValue c) (.classValue c')
  | object (id : InstanceId) {c c' : Class} (h : c.Renumbered σ c') : Renumbered σ (.object id c) (.object id c')
  | foreign (serial : Nat) : Renumbered σ (.foreign serial) (.foreign (σ serial))

/-- The same names are bound, in any order, to values that are the same up to serial numbers. -/
structure Bindings.Renumbered (σ : Equiv.Perm Nat) (b b' : Bindings Value) : Prop where
  names : b'.names.Perm b.names
  values : ∀ name, Option.Rel (Value.Renumbered σ) (b.get? name) (b'.get? name)

section Values

variable {σ : Equiv.Perm Nat}

theorem Bindings.Renumbered.nil : Bindings.Renumbered σ [] [] :=
  ⟨.nil, fun _ => .none⟩

theorem Bindings.Renumbered.mem_names {b b' : Bindings Value} (h : Bindings.Renumbered σ b b') (name : String) :
    name ∈ b'.names ↔ name ∈ b.names :=
  h.names.mem_iff

theorem Bindings.Renumbered.put {b b' : Bindings Value} (h : Bindings.Renumbered σ b b') (name : String)
    {v v' : Value} (hv : v.Renumbered σ v') : Bindings.Renumbered σ (b.put name v) (b'.put name v') := by
  constructor
  · rw [Bindings.names_put, Bindings.names_put, if_congr (h.mem_names name) rfl rfl]
    split
    · exact h.names
    · exact h.names.append_right [name]
  · intro other
    by_cases hname : name = other
    · rw [hname, Bindings.get?_put_self, Bindings.get?_put_self]
      exact .some hv
    · rw [Bindings.get?_put_of_ne hname, Bindings.get?_put_of_ne hname]
      exact h.values other

theorem Class.Renumbered.own {c c' : Class} (h : c.Renumbered σ c') : c.own.Renumbered σ c'.own :=
  (List.forall₂_cons.1 h).1

theorem Class.Renumbered.findMethod? {c c' : Class} (h : c.Renumbered σ c') (name : String) :
    c'.findMethod? name = (c.findMethod? name).map (Closure.renumber σ) := by
  unfold Class.findMethod?
  unfold Class.Renumbered at h
  generalize c.lineage = layers at h ⊢
  generalize c'.lineage = layers' at h ⊢
  induction h with
  | nil => rfl
  | @cons l l' more more' hl _ ih =>
    simp only [List.findSome?_cons, hl.methods]
    cases l.methods.get? name with
    | none => exact ih
    | some f => rfl

namespace Value.Renumbered

variable {v v' u u' : Value}

theorem resembles (h : v.Renumbered σ v') : v.Resembles v' := by
  cases h with
  | function f => exact .function rfl
  | classValue h => exact .classValue h.own.name
  | object id h => exact .object id h.own.name
  | _ => constructor

theorem of_plain (h : v.IsPlain) : v.Renumbered σ v := by
  cases v with
  | null => exact .null
  | boolean b => exact .boolean b
  | number n => exact .number n
  | text s => exact .text s
  | _ => exact h.elim

theorem ofLiteral (literal : Literal) : (Value.ofLiteral literal).Renumbered σ (Value.ofLiteral literal) := by
  cases literal <;> constructor

theorem arity? (h : v.Renumbered σ v') : v'.arity? = v.arity? := by
  cases h with
  | @classValue c c' h =>
    simp only [Value.arity?, Class.initializer?, h.findMethod?, Option.map_map]
    rfl
  | _ => rfl

/-- Values are told apart by their serial numbers before and behind. -/
theorem equal (h : v.Renumbered σ v') (hu : u.Renumbered σ u') : v'.equal u' = v.equal u := by
  have hserial : ∀ a b : Nat, (σ a == σ b) = (a == b) := fun a b => by
    rw [Bool.eq_iff_iff, beq_iff_eq, beq_iff_eq, σ.injective.eq_iff]
  cases h with
  | function f =>
    cases hu with
    | function g => exact hserial f.serial g.serial
    | _ => rfl
  | native serial f =>
    cases hu with
    | native serial' g => exact hserial serial serial'
    | _ => rfl
  | classValue h =>
    cases hu with
    | classValue hu =>
      simp only [Value.equal, h.own.serial, hu.own.serial]
      exact hserial _ _
    | _ => rfl
  | foreign serial =>
    cases hu with
    | foreign serial' => exact hserial serial serial'
    | _ => rfl
  | _ => cases hu <;> rfl

end Value.Renumbered

end Values

/-! ## Machines -/

/-- Frames that are enclosed alike and bind the same up to serial numbers. -/
structure Frame.Renumbered (σ : Equiv.Perm Nat) (frame frame' : Frame Value) : Prop where
  enclosing : frame'.enclosing = frame.enclosing
  bindings : Bindings.Renumbered σ frame.bindings frame'.bindings

/-- Machines that hold the same up to serial numbers, of which those that are still to be given are the same. -/
structure Machine.Renumbered (σ : Equiv.Perm Nat) (m m' : Machine) : Prop where
  frames : m'.frames.size = m.frames.size
  frame : ∀ id : FrameId, Option.Rel (Frame.Renumbered σ) m.frames[id]? m'.frames[id]?
  objects : m'.fields.size = m.fields.size
  fields : ∀ id : InstanceId, Option.Rel (Bindings.Renumbered σ) m.fields[id]? m'.fields[id]?
  nextSerial : m'.nextSerial = m.nextSerial
  fixed : ∀ serial, m.nextSerial ≤ serial → σ serial = serial
  current : m'.current = m.current
  output : m'.output = m.output
  time : m'.time = m.time

namespace Machine.Renumbered

variable {σ : Equiv.Perm Nat} {m m' : Machine}

theorem bindingsOf (h : m.Renumbered σ m') (id : FrameId) :
    Bindings.Renumbered σ (m.frames.bindingsOf id) (m'.frames.bindingsOf id) := by
  unfold Frames.bindingsOf
  rcases rel_cases (h.frame id) with ⟨hf, hf'⟩ | ⟨frame, frame', hf, hf', hframe⟩ <;> rw [hf, hf']
  · exact .nil
  · exact hframe.bindings

theorem ancestor? (h : m.Renumbered σ m') (d : Nat) (id : FrameId) :
    m'.frames.ancestor? d id = m.frames.ancestor? d id := by
  induction d generalizing id with
  | zero => rw [Frames.ancestor?, Frames.ancestor?, h.frames]
  | succ d ih =>
    unfold Frames.ancestor?
    rcases rel_cases (h.frame id) with ⟨hf, hf'⟩ | ⟨frame, frame', hf, hf', hframe⟩ <;> rw [hf, hf']
    simp only [hframe.enclosing]
    cases frame.enclosing with
    | none => rfl
    | some outer => exact ih outer

theorem move (h : m.Renumbered σ m') (frame : FrameId) :
    Renumbered σ { m with current := frame } { m' with current := frame } :=
  { h with current := rfl }

theorem define (h : m.Renumbered σ m') (id : FrameId) (name : String) {v v' : Value} (hv : v.Renumbered σ v') :
    Renumbered σ { m with frames := m.frames.define id name v } { m' with frames := m'.frames.define id name v' } := by
  refine { h with frames := ?_, frame := fun other => ?_ }
  · rw [Frames.size_define, Frames.size_define, h.frames]
  · unfold Frames.define
    rw [Array.getElem?_modify, Array.getElem?_modify]
    split
    · rcases rel_cases (h.frame other) with ⟨hf, hf'⟩ | ⟨frame, frame', hf, hf', hframe⟩ <;> rw [hf, hf']
      · exact .none
      · exact .some ⟨hframe.enclosing, hframe.bindings.put name hv⟩
    · exact h.frame other

theorem add (h : m.Renumbered σ m') (link : FrameId) :
    Renumbered σ { m with frames := m.frames.add (some link) } { m' with frames := m'.frames.add (some link) } := by
  refine { h with frames := ?_, frame := fun id => ?_ }
  · rw [Frames.size_add, Frames.size_add, h.frames]
  · unfold Frames.add
    rw [Array.getElem?_push, Array.getElem?_push, h.frames]
    split
    · exact .some ⟨rfl, .nil⟩
    · exact h.frame id

theorem push (h : m.Renumbered σ m') :
    Renumbered σ { m with fields := m.fields.push [] } { m' with fields := m'.fields.push [] } := by
  refine { h with objects := ?_, fields := fun id => ?_ }
  · rw [Array.size_push, Array.size_push, h.objects]
  · rw [Array.getElem?_push, Array.getElem?_push, h.objects]
    split
    · exact .some .nil
    · exact h.fields id

theorem setField (h : m.Renumbered σ m') (id : InstanceId) (name : String) {v v' : Value}
    (hv : v.Renumbered σ v') :
    Renumbered σ { m with fields := m.fields.modify id fun bindings => bindings.put name v }
      { m' with fields := m'.fields.modify id fun bindings => bindings.put name v' } := by
  refine { h with objects := ?_, fields := fun other => ?_ }
  · rw [Array.size_modify, Array.size_modify, h.objects]
  · rw [Array.getElem?_modify, Array.getElem?_modify]
    split
    · rcases rel_cases (h.fields other) with ⟨hb, hb'⟩ | ⟨b, b', hb, hb', hbindings⟩ <;> rw [hb, hb']
      · exact .none
      · exact .some (hbindings.put name hv)
    · exact h.fields other

end Machine.Renumbered

/-! ## Steps -/

namespace Run

/-- On machines that are the same up to serial numbers the steps go alike: both yield values, which are related, or
both stop for the same reason; and the machines behind them are the same up to serial numbers. -/
def Matches (σ : Equiv.Perm Nat) {α : Type} (s t : Run α) (rel : α → α → Prop) : Prop :=
  ∀ ⦃m m' : Machine⦄, m.Renumbered σ m' →
    Pairs (fun a m₁ a' m₁' => rel a a' ∧ m₁.Renumbered σ m₁') (fun m₁ m₁' => m₁.Renumbered σ m₁') (s m) (t m')

section Rules

variable {σ : Equiv.Perm Nat} {α β : Type} {s t : Run α} {rel : α → α → Prop}

theorem Matches.pure {a a' : α} (h : rel a a') : Matches σ (pure a) (pure a') rel :=
  fun _ _ hm => ⟨h, hm⟩

theorem matches_throw (e : Fault) : Matches σ (throw e : Run α) (throw e) rel :=
  fun _ _ hm => ⟨rfl, hm⟩

theorem matches_fail (t : Token) (problem : Problem) : Matches σ (fail t problem : Run α) (fail t problem) rel :=
  matches_throw _

theorem Matches.bind {f g : α → Run β} {next : β → β → Prop} (h : Matches σ s t rel)
    (hf : ∀ a a', rel a a' → Matches σ (f a) (g a') next) : Matches σ (s >>= f) (t >>= g) next :=
  fun _ _ hm => (h hm).bind fun a _ a' _ ⟨hrel, hm₁⟩ => hf a a' hrel hm₁

theorem Matches.inFrame (h : Matches σ s t rel) (frame : FrameId) :
    Matches σ (inFrame frame s) (inFrame frame t) rel := by
  intro m m' hm
  have hpairs := h (hm.move frame)
  unfold Run.inFrame
  cases hs : s { m with current := frame } <;> cases ht : t { m' with current := frame } <;>
    rw [hs, ht] at hpairs
  · exact ⟨hpairs.1, { hpairs.2.move m.current with current := hm.current }⟩
  · exact hpairs
  · exact hpairs
  · exact ⟨hpairs.1, { hpairs.2.move m.current with current := hm.current }⟩

/-! ### Steps of the machine -/

theorem matches_currentFrame : Matches σ currentFrame currentFrame fun a a' => a' = a :=
  fun _ _ hm => ⟨hm.current, hm⟩

theorem matches_newFrame (link : FrameId) : Matches σ (newFrame link) (newFrame link) fun a a' => a' = a :=
  fun _ _ hm => ⟨hm.frames, hm.add link⟩

/-- Both get the same serial number, which the permutation leaves as it is. -/
theorem matches_newSerial : Matches σ newSerial newSerial fun a a' => a' = σ a := by
  intro m m' hm
  refine ⟨hm.nextSerial.trans (hm.fixed m.nextSerial (Nat.le_refl _)).symm, ?_⟩
  exact { hm with
    nextSerial := congrArg (· + 1) hm.nextSerial
    fixed := fun serial hserial => hm.fixed serial (Nat.le_of_succ_le hserial) }

theorem matches_newInstance : Matches σ newInstance newInstance fun a a' => a' = a :=
  fun _ _ hm => ⟨hm.objects, hm.push⟩

theorem matches_defineIn (id : FrameId) (name : String) {v v' : Value} (hv : v.Renumbered σ v') :
    Matches σ (defineIn id name v) (defineIn id name v') fun _ _ => True :=
  fun _ _ hm => ⟨trivial, hm.define id name hv⟩

theorem matches_define (name : String) {v v' : Value} (hv : v.Renumbered σ v') :
    Matches σ (define name v) (define name v') fun _ _ => True := by
  intro m m' hm
  have hdefined := hm.define m'.current name hv
  refine ⟨trivial, ?_⟩
  rwa [hm.current] at hdefined ⊢

theorem matches_defineAt (d : Nat) (name : String) {v v' : Value} (hv : v.Renumbered σ v') :
    Matches σ (defineAt d name v) (defineAt d name v') fun _ _ => True := by
  intro m m' hm
  have hplace : m'.frames.ancestor? d m'.current = m.frames.ancestor? d m.current := by
    rw [hm.current, hm.ancestor?]
  simp only [defineAt, hplace]
  cases m.frames.ancestor? d m.current with
  | none => exact ⟨rfl, hm⟩
  | some place => exact ⟨trivial, hm.define place name hv⟩

theorem matches_readAt (id : FrameId) (d : Nat) (name : String) :
    Matches σ (readAt id d name) (readAt id d name) (Value.Renumbered σ) := by
  intro m m' hm
  unfold readAt Frames.getAt
  rw [hm.ancestor?]
  cases m.frames.ancestor? d id with
  | none => exact ⟨rfl, hm⟩
  | some place =>
    rcases rel_cases ((hm.bindingsOf place).values name) with ⟨hv, hv'⟩ | ⟨v, v', hv, hv', hvalue⟩
    · simp only [hv, hv']
      exact ⟨rfl, hm⟩
    · simp only [hv, hv']
      exact ⟨hvalue, hm⟩

theorem matches_readGlobal (t : Token) : Matches σ (readGlobal t) (readGlobal t) (Value.Renumbered σ) := by
  intro m m' hm
  unfold readGlobal
  rcases rel_cases ((hm.bindingsOf Machine.globalFrame).values t.lexeme) with
    ⟨hv, hv'⟩ | ⟨v, v', hv, hv', hvalue⟩
  · simp only [hv, hv']
    exact ⟨rfl, hm⟩
  · simp only [hv, hv']
    exact ⟨hvalue, hm⟩

theorem matches_printLine (text : String) : Matches σ (printLine text) (printLine text) fun _ _ => True :=
  fun _ _ hm => ⟨trivial, { hm with output := congrArg (· ++ text ++ "\n") hm.output }⟩

theorem matches_readField? (id : InstanceId) (name : String) :
    Matches σ (readField? id name) (readField? id name) (Option.Rel (Value.Renumbered σ)) := by
  intro m m' hm
  refine ⟨?_, hm⟩
  rcases rel_cases (hm.fields id) with ⟨hb, hb'⟩ | ⟨b, b', hb, hb', hbindings⟩ <;> rw [hb, hb']
  · exact .none
  · exact hbindings.values name

theorem matches_writeField (id : InstanceId) (name : String) {v v' : Value} (hv : v.Renumbered σ v') :
    Matches σ (writeField id name v) (writeField id name v') fun _ _ => True :=
  fun _ _ hm => ⟨trivial, hm.setField id name hv⟩

/-! ### Operators and natives -/

variable {v v' l l' r r' : Value}

theorem Settles.matches {p : Run Value} (h : Settles p) : Matches σ p p (Value.Renumbered σ) := by
  cases h with
  | plain v h => exact .pure (.of_plain h)
  | stop e => exact matches_throw e

theorem matches_unary (operator : Token) (h : v.Renumbered σ v') :
    Matches σ (unary operator v) (unary operator v') (Value.Renumbered σ) := by
  rw [unary_eq operator h.resembles]
  exact (settles_unary operator v).matches

theorem matches_binary (operator : Token) (hl : l.Renumbered σ l') (hr : r.Renumbered σ r') :
    Matches σ (binary operator l r) (binary operator l' r') (Value.Renumbered σ) := by
  rw [binary_eq operator hl.resembles hr.resembles (hl.equal hr)]
  exact (settles_binary operator l r).matches

/-- What natives answer. -/
inductive AnswerRenumbered (σ : Equiv.Perm Nat) : Except String Value → Except String Value → Prop
  | ok {v v' : Value} (h : v.Renumbered σ v') : AnswerRenumbered σ (.ok v) (.ok v')
  | refusal (text : String) : AnswerRenumbered σ (.error text) (.error text)

theorem matches_now : Matches σ now now fun a a' => a' = a :=
  fun _ _ hm => ⟨hm.time, hm⟩

theorem matches_fieldOf? (h : v.Renumbered σ v') (name : String) :
    Matches σ (fieldOf? v name) (fieldOf? v' name) (Option.Rel (Value.Renumbered σ)) := by
  cases h with
  | object id h => exact matches_readField? id name
  | _ => exact .pure .none

theorem matches_setFieldOf {value value' : Value} (h : v.Renumbered σ v') (name : String)
    (hvalue : value.Renumbered σ value') :
    Matches σ (setFieldOf v name value) (setFieldOf v' name value') fun _ _ => True := by
  cases h with
  | object id h => exact matches_writeField id name hvalue
  | _ => exact .pure trivial

/-- Natives see no serial numbers, so that they take the same way on both sides. -/
theorem matches_run (script : Native.Script) {hand hand' : List Value}
    (hhand : List.Forall₂ (Value.Renumbered σ) hand hand') :
    Matches σ (script.run hand) (script.run hand') (AnswerRenumbered σ) := by
  have hheld : ∀ {hand hand' : List Value}, List.Forall₂ (Value.Renumbered σ) hand hand' →
      ∀ i, (Native.held hand i).Renumbered σ (Native.held hand' i) :=
    fun hhand => Native.held_of_forall₂ hhand .null
  induction script generalizing hand hand' with
  | give i => exact .pure (.ok (hheld hhand i))
  | refuse text => exact .pure (.refusal text)
  | raise line problem => exact matches_throw _
  | overflow => exact matches_throw _
  | look i next ih =>
    rw [Native.Script.run, Native.Script.run, (hheld hhand i).resembles.view]
    exact ih _ hhand
  | compare i j next ih =>
    rw [Native.Script.run, Native.Script.run, (hheld hhand i).equal (hheld hhand j)]
    exact ih _ hhand
  | time next ih =>
    refine matches_now.bind ?_
    rintro x _ rfl
    exact ih _ hhand
  | hold d next ih => exact ih (List.rel_append hhand (.cons (.of_plain (Value.isPlain_ofDatum d)) .nil))
  | make next ih =>
    refine matches_newSerial.bind ?_
    rintro serial _ rfl
    exact ih (List.rel_append hhand (.cons (.foreign serial) .nil))
  | read i field next ih =>
    refine (matches_fieldOf? (hheld hhand i) field).bind fun found found' hfound => ?_
    cases hfound with
    | none => exact ih _ (List.rel_append hhand .nil)
    | some hv => exact ih _ (List.rel_append hhand (.cons hv .nil))
  | write i field j next ih =>
    exact (matches_setFieldOf (hheld hhand i) field (hheld hhand j)).bind fun _ _ _ => ih hhand
  | print line next ih => exact (matches_printLine line).bind fun _ _ _ => ih hhand

theorem matches_callNative (paren : Token) (f : Native) {arguments arguments' : List Value}
    (h : List.Forall₂ (Value.Renumbered σ) arguments arguments') :
    Matches σ (callNative paren f arguments) (callNative paren f arguments') (Value.Renumbered σ) := by
  refine (matches_run f.script h).bind fun answer answer' hanswer => ?_
  cases hanswer with
  | ok hv => exact .pure hv
  | refusal text => exact matches_fail _ _

end Rules
end Run
end Offside
