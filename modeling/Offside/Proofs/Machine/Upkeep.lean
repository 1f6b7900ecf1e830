import Offside.Machine.Evaluation
import Offside.Proofs.Machine.Ledger
import Offside.Proofs.Machine.Resemblance
import Offside.Proofs.Steps

/-!
# Steps that keep the account

`Run.Keeps` compares two steps that are taken from one tidy machine: they do the same, and however they end,
they leave a tidy machine whose account extends that of before, with the current frame restored.  Nothing is
asked of the fault with which a step may end, so that errors, natives and exhausted bounds are all covered.
One rule for each way of putting steps together, and one for each step of the machine, carry this through every
helper of the evaluator.

* `Machine.Becomes` — what a step leaves behind;
* `Run.Keeps.bind`, `Run.Keeps.inFrame` — steps in sequence and in another frame;
* `Run.keeps_newSerial`, `Run.keeps_newInstance` — the steps that extend the account.
-/

set_option autoImplicit false

namespace Offside

open Binding (MayBind)

/-- The machine `m'` is tidy by an account that extends `L`, its frames have grown out of those of `m`, and it
is at the same frame. -/
structure Machine.Becomes (G : List String) (L : Ledger) (m : Machine) (L' : Ledger) (m' : Machine) :
    Prop where
  tidy : m'.Tidy G L'
  more : L.Extends L'
  grows : m.frames.Grows m'.frames
  current : m'.current = m.current

namespace Machine.Becomes

variable {G : List String} {L L' L'' : Ledger} {m m' m'' : Machine}

theorem refl (h : m.Tidy G L) : m.Becomes G L L m :=
  ⟨h, .refl L, Frames.Grows.refl _, rfl⟩

theorem trans (h : m.Becomes G L L' m') (h' : m'.Becomes G L' L'' m'') : m.Becomes G L L'' m'' :=
  ⟨h'.tidy, h.more.trans h'.more, h.grows.trans h'.grows, h'.current.trans h.current⟩

theorem mono {G' : List String} (h : m.Becomes G L L' m') (hG : G ⊆ G') : m.Becomes G' L L' m' :=
  ⟨h.tidy.mono hG, h.more, h.grows, h.current⟩

theorem deep {n : Nat} (h : m.Becomes G L L' m') (hd : m.frames.Deep m.current n) :
    m'.frames.Deep m'.current n := by
  rw [h.current]
  exact hd.grow h.grows

end Machine.Becomes

/-- A value that a statement gives back is known. -/
def Flow.In (L : Ledger) : Flow → Prop
  | .next => True
  | .back value => value.In L

namespace Run

open Step

/-- From `m` the steps `p` and `q` do the same, and they keep the account.  A value that they yield satisfies
`post`, together with the account and the frames that they leave. -/
structure Keeps (G : List String) (L : Ledger) (m : Machine) {α : Type} (p q : Run α)
    (post : Ledger → α → Frames Value → Prop) : Prop where
  same : p m = q m
  ends : Ends (q m) (fun a m' => ∃ L', m.Becomes G L L' m' ∧ post L' a m'.frames)
    (fun _ m' => ∃ L', m.Becomes G L L' m')

/-- What a step yields is known. -/
def Known (L : Ledger) (v : Value) (_ : Frames Value) : Prop :=
  v.In L

/-- What a statement gives back is known. -/
def FlowKnown (L : Ledger) (flow : Flow) (_ : Frames Value) : Prop :=
  flow.In L

section Rules

variable {G : List String} {L : Ledger} {m : Machine} {α β : Type} {p q : Run α}
  {post : Ledger → α → Frames Value → Prop}

/-! ## Putting steps together -/

theorem Keeps.of_ok {a : α} {L' : Ledger} {m' : Machine} (h : p m = .ok a m') (hb : m.Becomes G L L' m')
    (hpost : post L' a m'.frames) : Keeps G L m p p post :=
  ⟨rfl, Ends.of_ok h ⟨L', hb, hpost⟩⟩

theorem Keeps.of_error {e : Fault} (h : p m = .error e m) (hm : m.Tidy G L) : Keeps G L m p p post := by
  refine ⟨rfl, ?_⟩
  rw [h]
  exact ⟨L, .refl hm⟩

theorem Keeps.pure {a : α} (hm : m.Tidy G L) (hpost : post L a m.frames) :
    Keeps G L m (pure a) (pure a) post :=
  .of_ok rfl (.refl hm) hpost

theorem keeps_throw (hm : m.Tidy G L) (e : Fault) : Keeps G L m (throw e : Run α) (throw e) post :=
  .of_error rfl hm

theorem keeps_fail (hm : m.Tidy G L) (t : Token) (problem : Problem) :
    Keeps G L m (fail t problem : Run α) (fail t problem) post :=
  keeps_throw hm _

theorem Keeps.mono {post' : Ledger → α → Frames Value → Prop} (h : Keeps G L m p q post)
    (hpost : ∀ L' a m', m.Becomes G L L' m' → post L' a m'.frames → post' L' a m'.frames) :
    Keeps G L m p q post' := by
  refine ⟨h.same, h.ends.mono ?_ fun _ _ he => he⟩
  rintro a m' ⟨L', hb, hp⟩
  exact ⟨L', hb, hpost L' a m' hb hp⟩

/-- Steps in sequence: the second starts from whatever the first leaves. -/
theorem Keeps.bind {f g : α → Run β} {next : Ledger → β → Frames Value → Prop} (h : Keeps G L m p q post)
    (hf : ∀ L' a m', m.Becomes G L L' m' → post L' a m'.frames → Keeps G L' m' (f a) (g a) next) :
    Keeps G L m (p >>= f) (q >>= g) next := by
  constructor
  · cases hq : q m with
    | ok a m' =>
      obtain ⟨L', hb, hpost⟩ := h.ends.value_of_ok hq
      rw [bind_of_ok (h.same.trans hq), bind_of_ok hq, (hf L' a m' hb hpost).same]
    | error e m' => rw [bind_of_error (h.same.trans hq), bind_of_error hq]
  · refine h.ends.bind ?_
    rintro a m' ⟨L', hb, hpost⟩
    refine (hf L' a m' hb hpost).ends.mono ?_ ?_
    · rintro b m'' ⟨L'', hb', hnext⟩
      exact ⟨L'', hb.trans hb', hnext⟩
    · rintro e m'' ⟨L'', hb'⟩
      exact ⟨L'', hb.trans hb'⟩

/-- A step in another frame comes back to the current one, however it ends. -/
theorem Keeps.inFrame {frame : FrameId} (h : Keeps G L { m with current := frame } p q post) :
    Keeps G L m (inFrame frame p) (inFrame frame q) post := by
  have hsame := h.same
  have hends := h.ends
  cases hq : q { m with current := frame } with
  | ok a m' =>
    rw [hq] at hsame
    obtain ⟨L', hb, hpost⟩ := hends.value_of_ok hq
    refine ⟨by simp only [Run.inFrame, hsame, hq], ?_⟩
    simp only [Run.inFrame, hq]
    exact ⟨L', ⟨hb.tidy.of_eq rfl rfl rfl, hb.more, hb.grows, rfl⟩, hpost⟩
  | error e m' =>
    rw [hq] at hsame
    obtain ⟨L', hb⟩ := hends.fault_of_error hq
    refine ⟨by simp only [Run.inFrame, hsame, hq], ?_⟩
    simp only [Run.inFrame, hq]
    exact ⟨L', hb.tidy.of_eq rfl rfl rfl, hb.more, hb.grows, rfl⟩

/-! ## Steps of the machine -/

theorem keeps_currentFrame (hm : m.Tidy G L) :
    Keeps G L m currentFrame currentFrame fun _ id _ => id = m.current :=
  .of_ok rfl (.refl hm) rfl

theorem keeps_newFrame {link : FrameId} {n : Nat} (hm : m.Tidy G L) (hdeep : m.frames.Deep link n) :
    Keeps G L m (newFrame link) (newFrame link) fun _ id frames => frames.Deep id (n + 1) :=
  .of_ok rfl ⟨hm.add (hdeep.lt hm.top_lt), .refl L, Frames.grows_add _ _, rfl⟩ hdeep.add

/-- Something is made: the account records it under its serial number. -/
theorem keeps_newSerial (hm : m.Tidy G L) (cell : Nat → Ledger.Cell)
    (hcell : ∀ L', L.Extends L' → (cell m.nextSerial).Kept G L' m.frames m.nextSerial) :
    Keeps G L m newSerial newSerial fun L' serial _ => L'.cells[serial]? = some (cell serial) := by
  have hmore := L.extends_record (cell m.nextSerial)
  refine .of_ok rfl ⟨hm.newSerial _ (hcell _ hmore), hmore, Frames.Grows.refl _, rfl⟩ ?_
  rw [← hm.serials]
  exact List.getElem?_concat_length

theorem keeps_newInstance {c : Class} (hm : m.Tidy G L) (hc : (Value.classValue c).In L) :
    Keeps G L m newInstance newInstance fun L' id _ => (Value.object id c).In L' := by
  refine .of_ok rfl ⟨hm.newInstance hc, L.extends_enroll c, Frames.Grows.refl _, rfl⟩ ?_
  show (L.classes ++ [c])[m.fields.size]? = some c
  rw [← hm.instances]
  exact List.getElem?_concat_length

/-- Binding a name in a frame `n` links deep, which is the global one if `n` is zero. -/
theorem keeps_defineIn {id : FrameId} {n : Nat} {name : String} {value : Value} (hm : m.Tidy G L)
    (hdeep : m.frames.Deep id n) (hn : value.Suits name) (hglobal : n = 0 → name ∈ G) (hv : value.In L) :
    Keeps G L m (defineIn id name value) (defineIn id name value) fun _ _ frames =>
      frames.Binds id name := by
  obtain ⟨top, htop, hnone⟩ := hm.top
  have hplace : id = Machine.globalFrame → name ∈ G := by
    intro hid
    cases n with
    | zero => exact hglobal rfl
    | succ n => exact absurd hid (hdeep.ne_global htop hnone)
  have hframe := Array.getElem?_eq_getElem (hdeep.lt hm.top_lt)
  exact .of_ok rfl ⟨hm.define hv hn hplace, .refl L, Frames.grows_define _ _ _ _, rfl⟩
    (Frames.binds_define hframe name value)

theorem keeps_define {n : Nat} {name : String} {value : Value} (hm : m.Tidy G L)
    (hdeep : m.frames.Deep m.current n) (hname : MayBind G n 0 name) (hv : value.In L) :
    Keeps G L m (define name value) (define name value) fun _ _ frames => frames.Binds m.current name := by
  have h := keeps_defineIn hm hdeep (Value.suits_of_bindable hname.bindable value)
    (fun hn => hname.global hn.symm) hv
  exact ⟨rfl, h.ends⟩

theorem keeps_defineAt {d n : Nat} {name : String} {value : Value} (hm : m.Tidy G L)
    (hdeep : m.frames.Deep m.current n) (hname : MayBind G n d name) (hv : value.In L) :
    Keeps G L m (defineAt d name value) (defineAt d name value) fun _ _ _ => True := by
  obtain ⟨top, htop, hnone⟩ := hm.top
  cases hplace : m.frames.ancestor? d m.current with
  | none =>
    have hrun : defineAt d name value m = .error .missingFrame m := by simp only [defineAt, hplace]
    exact .of_error hrun hm
  | some place =>
    have hrun : defineAt d name value m = .ok () { m with frames := m.frames.define place name value } := by
      simp only [defineAt, hplace]
    refine .of_ok hrun ⟨hm.define hv (Value.suits_of_bindable hname.bindable value) ?_, .refl L,
      Frames.grows_define _ _ _ _, rfl⟩ trivial
    rintro rfl
    exact hname.global (hdeep.eq_of_ancestor? htop hnone hplace)

theorem keeps_readAt (hm : m.Tidy G L) (id : FrameId) (d : Nat) (name : String) :
    Keeps G L m (readAt id d name) (readAt id d name) fun L' v _ => v.In L' ∧ v.Suits name := by
  cases hget : m.frames.getAt id d name with
  | error absent =>
    have hrun : readAt id d name m = .error (faultOf absent) m := by simp only [readAt, hget]
    exact .of_error hrun hm
  | ok v =>
    have hrun : readAt id d name m = .ok v m := by simp only [readAt, hget]
    exact .of_ok hrun (.refl hm) (hm.of_getAt hget)

theorem keeps_readGlobal (hm : m.Tidy G L) (t : Token) :
    Keeps G L m (readGlobal t) (readGlobal t) Known := by
  cases hget : (m.frames.bindingsOf Machine.globalFrame).get? t.lexeme with
  | none =>
    have hrun : readGlobal t m = .error (.error (some t.line) (.undefinedVariable t.lexeme)) m := by
      simp only [readGlobal, hget]
    exact .of_error hrun hm
  | some v =>
    have hrun : readGlobal t m = .ok v m := by simp only [readGlobal, hget]
    exact .of_ok hrun (.refl hm) (hm.of_global hget).1

theorem keeps_printLine (hm : m.Tidy G L) (s : String) :
    Keeps G L m (printLine s) (printLine s) fun _ _ _ => True :=
  .of_ok rfl ⟨hm.of_eq rfl rfl rfl, .refl L, Frames.Grows.refl _, rfl⟩ trivial

theorem keeps_readField? (hm : m.Tidy G L) (id : InstanceId) (name : String) :
    Keeps G L m (readField? id name) (readField? id name) fun L' found _ => ∀ v ∈ found, v.In L' := by
  refine .of_ok rfl (.refl hm) ?_
  intro v hv
  obtain ⟨bindings, hb, hget⟩ := Option.bind_eq_some_iff.1 hv
  exact hm.fields id bindings name v hb hget

theorem keeps_writeField {value : Value} (hm : m.Tidy G L) (id : InstanceId) (name : String)
    (hv : value.In L) :
    Keeps G L m (writeField id name value) (writeField id name value) fun _ _ _ => True :=
  .of_ok rfl ⟨hm.setField id name hv, .refl L, Frames.Grows.refl _, rfl⟩ trivial

end Rules

/-! ## Operators and natives -/

section Operators

variable {G : List String} {L : Ledger} {m : Machine}

theorem keeps_unary (hm : m.Tidy G L) (operator : Token) (v : Value) :
    Keeps G L m (unary operator v) (unary operator v) Known := by
  unfold unary
  split
  · split
    · exact .pure hm trivial
    · exact keeps_fail hm _ _
  · exact .pure hm trivial

theorem keeps_result (hm : m.Tidy G L) (n : Option Number) :
    Keeps G L m (result n) (result n) Known := by
  cases n with
  | none => exact keeps_throw hm _
  | some n => exact .pure hm trivial

theorem keeps_plus (hm : m.Tidy G L) (operator : Token) (l r : Value) :
    Keeps G L m (plus operator l r) (plus operator l r) Known := by
  unfold plus
  split
  · exact keeps_result hm _
  · exact .pure hm trivial
  · exact .pure hm trivial
  · exact keeps_fail hm _ _

theorem keeps_numeric {k : Token.Kind} {operation : Number → Number → Run Value} (hm : m.Tidy G L)
    (h : numeric? k = some operation) (a b : Number) :
    Keeps G L m (operation a b) (operation a b) Known := by
  unfold numeric? at h
  split at h
  all_goals first | (obtain rfl := Option.some.inj h) | cases h
  · exact keeps_result hm _
  · exact keeps_result hm _
  · exact keeps_result hm _
  all_goals exact .pure hm trivial

theorem keeps_binary (hm : m.Tidy G L) (operator : Token) (l r : Value) :
    Keeps G L m (binary operator l r) (binary operator l r) Known := by
  unfold binary
  split
  · next operation hop =>
    split
    · exact keeps_numeric hm hop _ _
    · exact keeps_fail hm _ _
  · split
    · exact keeps_plus hm operator l r
    · exact .pure hm trivial
    · exact .pure hm trivial
    · exact keeps_fail hm _ _

theorem keeps_now (hm : m.Tidy G L) : Keeps G L m now now fun _ _ _ => True :=
  .of_ok rfl (.refl hm) trivial

theorem keeps_fieldOf? (hm : m.Tidy G L) (v : Value) (name : String) :
    Keeps G L m (fieldOf? v name) (fieldOf? v name) fun L' found _ => ∀ w ∈ found, w.In L' := by
  cases v with
  | object id c => exact keeps_readField? hm id name
  | _ => exact .pure hm nofun

theorem keeps_setFieldOf (hm : m.Tidy G L) (v : Value) (name : String) {value : Value} (hvalue : value.In L) :
    Keeps G L m (setFieldOf v name value) (setFieldOf v name value) fun _ _ _ => True := by
  cases v with
  | object id c => exact keeps_writeField hm id name hvalue
  | _ => exact .pure hm trivial

/-- A native holds nothing but what the account knows: what it was given or found in a field, data, and the foreign
objects that it makes. -/
theorem keeps_run (hm : m.Tidy G L) (script : Native.Script) {hand : List Value} (hhand : ∀ v ∈ hand, v.In L) :
    Keeps G L m (script.run hand) (script.run hand) fun L' result _ => ∀ v, result = .ok v → v.In L' := by
  induction script generalizing L m hand with
  | give i =>
    have hheld : (Native.held hand i).In L := Native.held_of_forall hhand trivial i
    exact .pure hm fun _ hok => Except.ok.inj hok ▸ hheld
  | refuse text => exact .pure hm nofun
  | raise line problem => exact keeps_throw hm _
  | overflow => exact keeps_throw hm _
  | look i next ih => exact ih _ hm hhand
  | compare i j next ih => exact ih _ hm hhand
  | time next ih => exact .bind (keeps_now hm) fun L₁ x m₁ h₁ _ => ih x h₁.tidy fun v hv => (hhand v hv).mono h₁.more
  | hold d next ih =>
    have hd : (Value.ofDatum d).In L := by cases d <;> trivial
    exact ih hm (List.forall_mem_append.2 ⟨hhand, List.forall_mem_singleton.2 hd⟩)
  | make next ih =>
    refine .bind (keeps_newSerial hm (fun _ => .foreign) fun _ _ => trivial) fun L₁ serial m₁ h₁ hserial => ?_
    have hmade : (Value.foreign serial).In L₁ := hserial
    exact ih h₁.tidy (List.forall_mem_append.2
      ⟨fun v hv => (hhand v hv).mono h₁.more, List.forall_mem_singleton.2 hmade⟩)
  | read i field next ih =>
    refine .bind (keeps_fieldOf? hm _ field) fun L₁ found m₁ h₁ hfound => ?_
    exact ih _ h₁.tidy (List.forall_mem_append.2
      ⟨fun v hv => (hhand v hv).mono h₁.more, fun v hv => hfound v (Option.mem_toList.1 hv)⟩)
  | write i field j next ih =>
    have hvalue : (Native.held hand j).In L := Native.held_of_forall hhand trivial j
    refine .bind (keeps_setFieldOf hm _ field hvalue) fun L₁ _ m₁ h₁ _ => ?_
    exact ih h₁.tidy fun v hv => (hhand v hv).mono h₁.more
  | print line next ih =>
    exact .bind (keeps_printLine hm line) fun L₁ _ m₁ h₁ _ => ih h₁.tidy fun v hv => (hhand v hv).mono h₁.more

theorem keeps_callNative (hm : m.Tidy G L) (paren : Token) (f : Native) {arguments : List Value}
    (hargs : ∀ v ∈ arguments, v.In L) :
    Keeps G L m (callNative paren f arguments) (callNative paren f arguments) Known := by
  refine .bind (keeps_run hm f.script hargs) fun L₁ result m₁ h₁ hresult => ?_
  cases result with
  | ok v => exact .pure h₁.tidy (hresult v rfl)
  | error text => exact keeps_fail h₁.tidy _ _

end Operators

end Run
end Offside
