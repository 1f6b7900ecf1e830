import Offside.Proofs.Machine.Sound
import Offside.Proofs.Steps

/-!
# Steps that keep tours sound

`Tour.Faithful` compares a step of a tour with a step of the machine: without the account they do the same, and the
tour is sound again, with the frames grown and the current frame restored; a run fails only as programs may fail.
One rule for each way of putting steps together, and one for each step of the machine, carry this through every
helper of the evaluator.

* `Toured.Leads` — what a step leaves behind, however it ends;
* `Tour.Faithful.bind`, `Tour.Faithful.inFrame` — steps in sequence and in another frame;
* `Tour.Faithful.arrive`, `Tour.faithful_newFunction` — the steps that give an account;
* `Tour.faithful_newFrame`, `Tour.faithful_defineIn`, `Tour.faithful_readAt` and others — the steps of the machine.
-/

set_option autoImplicit false

namespace Offside

open Binding (Visit Path Node Scope Ready enter)

/-- The faults with which a program may end: its own errors, and the bounds of a run. -/
def Fault.Expected : Fault → Prop
  | .error _ _ | .overflow | .exhausted => True
  | .missingName | .missingFrame | .tooLarge | .unknown _ => False

/-- The tour is sound again, it has grown out of the one before, and it is at the same frame. -/
structure Toured.Leads (V : List Visit) (t t' : Toured) : Prop where
  sound : t'.Sound V
  grows : t.Grows t'
  current : t'.machine.current = t.machine.current

namespace Toured.Leads

variable {V : List Visit} {t t' t'' : Toured}

theorem refl (h : t.Sound V) : t.Leads V t :=
  ⟨h, .refl _, rfl⟩

theorem trans (h : t.Leads V t') (h' : t'.Leads V t'') : t.Leads V t'' :=
  ⟨h'.sound, h.grows.trans h'.grows, h'.current.trans h.current⟩

theorem mirrors {scopes : List Scope} (h : t.Leads V t')
    (hm : t.machine.frames.Mirrors t.machine.current scopes) :
    t'.machine.frames.Mirrors t'.machine.current scopes := by
  rw [h.current]
  exact hm.grow h.grows.frames

end Toured.Leads

/-- Only the current frame changes, or what has been printed. -/
theorem Toured.Sound.leads_of_eq {V : List Visit} {t : Toured} (h : t.Sound V) {m : Machine}
    (hframes : m.frames = t.machine.frames) (hfields : m.fields = t.machine.fields)
    (hserial : m.nextSerial = t.machine.nextSerial) (hcurrent : m.current = t.machine.current) :
    t.Leads V { t with machine := m } :=
  ⟨h.of_eq hframes hfields hserial, Toured.grows_of_frames (hframes ▸ .refl _), hcurrent⟩

/-- A value that a statement gives back fits. -/
def Flow.Fits (V : List Visit) (t : Toured) : Flow → Prop
  | .next => True
  | .back value => value.Fits V t

namespace Tour

open Step

/-- From `t` the steps `p` and `q` do the same, but for the account of `p`.  A value that they yield satisfies `post`,
together with the tour that is left; a fault is one with which a program may end. -/
structure Faithful (V : List Visit) (t : Toured) {α : Type} (p : Tour α) (q : Run α)
    (post : α → Toured → Prop) : Prop where
  same : erased (p t) = q t.machine
  ends : Ends (p t) (fun a t' => t.Leads V t' ∧ post a t') (fun e t' => t.Leads V t' ∧ e.Expected)

section Rules

variable {V : List Visit} {t : Toured} {α β : Type} {p : Tour α} {q : Run α} {post : α → Toured → Prop}

/-! ## Putting steps together -/

/-- A step of the machine that yields a value. -/
theorem Faithful.of_ok {a : α} {m : Machine} (h : q t.machine = .ok a m)
    (hl : t.Leads V { t with machine := m }) (hpost : post a { t with machine := m }) :
    Faithful V t (lift q) q post := by
  have hlift : lift q t = .ok a { t with machine := m } := by simp only [lift, h]
  refine ⟨?_, ?_⟩
  · rw [hlift, h]
    rfl
  · rw [hlift]
    exact ⟨hl, hpost⟩

/-- A step of the machine that ends with a fault and changes nothing. -/
theorem Faithful.of_error {e : Fault} (h : q t.machine = .error e t.machine) (ht : t.Sound V)
    (he : e.Expected) : Faithful V t (lift q) q post := by
  have hlift : lift q t = .error e t := by simp only [lift, h]
  refine ⟨?_, ?_⟩
  · rw [hlift, h]
    rfl
  · rw [hlift]
    exact ⟨.refl ht, he⟩

theorem Faithful.pure {a : α} (ht : t.Sound V) (hpost : post a t) : Faithful V t (pure a) (pure a) post :=
  ⟨rfl, .refl ht, hpost⟩

theorem faithful_value {a : α} (ht : t.Sound V) (hpost : post a t) :
    Faithful V t (lift (Pure.pure a : Run α)) (Pure.pure a) post :=
  .of_ok rfl (.refl ht) hpost

theorem faithful_throw {e : Fault} (ht : t.Sound V) (he : e.Expected) :
    Faithful V t (throw e : Tour α) (throw e) post :=
  ⟨rfl, .refl ht, he⟩

theorem faithful_fail (ht : t.Sound V) (token : Token) (problem : Problem) :
    Faithful V t (lift (Run.fail token problem : Run α)) (Run.fail token problem) post :=
  .of_error rfl ht trivial

theorem Faithful.mono {post' : α → Toured → Prop} (h : Faithful V t p q post)
    (hpost : ∀ a t', t.Leads V t' → post a t' → post' a t') : Faithful V t p q post' :=
  ⟨h.same, h.ends.mono (fun a t' ⟨hl, hp⟩ => ⟨hl, hpost a t' hl hp⟩) fun _ _ he => he⟩

/-- Steps in sequence: the second starts from whatever sound tour the first leads to. -/
theorem Faithful.bind {f : α → Tour β} {g : α → Run β} {next : β → Toured → Prop} (h : Faithful V t p q post)
    (hf : ∀ a t', t.Leads V t' → post a t' → Faithful V t' (f a) (g a) next) :
    Faithful V t (p >>= f) (q >>= g) next := by
  have hsame := h.same
  cases hp : p t with
  | ok a t' =>
    obtain ⟨hl, hpost⟩ := h.ends.value_of_ok hp
    rw [hp] at hsame
    have hrest := hf a t' hl hpost
    refine ⟨?_, ?_⟩
    · rw [bind_of_ok hp, bind_of_ok hsame.symm]
      exact hrest.same
    · rw [bind_of_ok hp]
      exact hrest.ends.mono (fun _ _ ⟨hl', hb⟩ => ⟨hl.trans hl', hb⟩) fun _ _ ⟨hl', he⟩ => ⟨hl.trans hl', he⟩
  | error e t' =>
    rw [hp] at hsame
    refine ⟨?_, ?_⟩
    · rw [bind_of_error hp, bind_of_error hsame.symm]
      rfl
    · rw [bind_of_error hp]
      exact h.ends.fault_of_error hp

theorem lift_bind (q : Run α) (f : α → Run β) : lift (q >>= f) = lift q >>= fun a => lift (f a) := by
  funext t
  cases hq : q t.machine with
  | ok a m =>
    have hlift : lift q t = .ok a { t with machine := m } := by simp only [lift, hq]
    rw [bind_of_ok hlift]
    simp only [lift, bind_of_ok hq]
  | error e m =>
    have hlift : lift q t = .error e { t with machine := m } := by simp only [lift, hq]
    rw [bind_of_error hlift]
    simp only [lift, bind_of_error hq]

/-- Steps of the machine in sequence. -/
theorem Faithful.lifted {f : α → Run β} {next : β → Toured → Prop} (h : Faithful V t (lift q) q post)
    (hf : ∀ a t', t.Leads V t' → post a t' → Faithful V t' (lift (f a)) (f a) next) :
    Faithful V t (lift (q >>= f)) (q >>= f) next := by
  rw [lift_bind]
  exact h.bind hf

/-- A step in another frame comes back to the current one, however it ends. -/
theorem Faithful.inFrame {frame : FrameId}
    (h : Faithful V { t with machine := { t.machine with current := frame } } p q post)
    (hpost : ∀ a t', t'.Sound V → post a t' →
      post a { t' with machine := { t'.machine with current := t.machine.current } }) :
    Faithful V t (inFrame frame p) (Run.inFrame frame q) post := by
  have hback : ∀ t', Toured.Leads V { t with machine := { t.machine with current := frame } } t' →
      t.Leads V { t' with machine := { t'.machine with current := t.machine.current } } := fun t' hl =>
    ⟨hl.sound.of_eq rfl rfl rfl, ⟨hl.grows.frames, hl.grows.origins⟩, rfl⟩
  have hsame := h.same
  have hends := h.ends
  cases hp : p { t with machine := { t.machine with current := frame } } with
  | ok a t' =>
    obtain ⟨hl, ha⟩ := hends.value_of_ok hp
    rw [hp] at hsame
    refine ⟨by simp only [Tour.inFrame, Run.inFrame, hp, ← hsame, erased], ?_⟩
    simp only [Tour.inFrame, hp]
    exact ⟨hback t' hl, hpost a t' hl.sound ha⟩
  | error e t' =>
    obtain ⟨hl, he⟩ := hends.fault_of_error hp
    rw [hp] at hsame
    refine ⟨by simp only [Tour.inFrame, Run.inFrame, hp, ← hsame, erased], ?_⟩
    simp only [Tour.inFrame, hp]
    exact ⟨hback t' hl, he⟩

/-! ## Steps that give an account -/

/-- Coming to a node at which the machine agrees with the visit. -/
theorem Faithful.arrive {path : Path} {node : Node} (ht : t.Sound V) (hagrees : t.machine.AgreesAt V path node)
    (h : ∀ t' : Toured, t.Leads V t' → t'.machine = t.machine → Faithful V t' p q post) :
    Faithful V t (arrive path node >>= fun _ => p) q post := by
  have hl : t.Leads V { t with arrivals := t.arrivals ++ [⟨path, node, t.machine⟩] } :=
    ⟨ht.arrive hagrees, ⟨.refl _, fun _ _ ho => ho⟩, rfl⟩
  have hp := h _ hl rfl
  exact ⟨hp.same, hp.ends.mono (fun _ _ ⟨hl', ha⟩ => ⟨hl.trans hl', ha⟩) fun _ _ ⟨hl', he⟩ => ⟨hl.trans hl', he⟩⟩

/-- The path of a function is the one that was recorded for it. -/
theorem Faithful.origin {f : Closure} {path : Path} {next : Path → Tour α}
    (horigin : t.origins.lookup f.serial = some path) (h : Faithful V t (next path) q post) :
    Faithful V t (originOf f >>= next) q post := by
  have hrun : (originOf f >>= next) t = next path t := by
    show next ((t.origins.lookup f.serial).getD []) t = next path t
    rw [horigin]
    rfl
  exact ⟨hrun ▸ h.same, hrun ▸ h.ends⟩

theorem faithful_newFunction (ht : t.Sound V) (path : Path) :
    Faithful V t (newFunction path) Run.newSerial
      fun serial t' => t'.origins.lookup serial = some path :=
  ⟨rfl, ⟨ht.makeFunction path, ht.grows_makeFunction path, rfl⟩, List.lookup_cons_self⟩

/-! ## Steps of the machine -/

theorem faithful_newSerial (ht : t.Sound V) :
    Faithful V t (lift Run.newSerial) Run.newSerial fun _ _ => True :=
  .of_ok rfl ⟨ht.newSerial, Toured.grows_of_frames (.refl _), rfl⟩ trivial

theorem faithful_currentFrame (ht : t.Sound V) :
    Faithful V t (lift Run.currentFrame) Run.currentFrame fun id _ => id = t.machine.current :=
  .of_ok rfl (.refl ht) rfl

theorem faithful_newFrame {link : FrameId} {scopes : List Scope} (ht : t.Sound V)
    (hmir : t.machine.frames.Mirrors link scopes) :
    Faithful V t (lift (Run.newFrame link)) (Run.newFrame link)
      fun id t' => t'.machine.frames.Mirrors id ([] :: scopes) :=
  .of_ok rfl ⟨ht.add _, Toured.grows_of_frames (Frames.grows_add _ _), rfl⟩ hmir.add

theorem faithful_newInstance (ht : t.Sound V) :
    Faithful V t (lift Run.newInstance) Run.newInstance fun _ _ => True :=
  .of_ok rfl ⟨ht.newInstance, Toured.grows_of_frames (.refl _), rfl⟩ trivial

/-- Binding a name in a frame.  The value need only fit once its name is bound. -/
theorem faithful_defineIn {id : FrameId} {name : String} {value : Value} {scopes : List Scope}
    (ht : t.Sound V) (hmir : t.machine.frames.Mirrors id scopes) (hn : value.Suits name)
    (hv : ∀ t', t.Grows t' → t'.machine.frames.Mirrors id (enter name true scopes) → value.Fits V t') :
    Faithful V t (lift (Run.defineIn id name value)) (Run.defineIn id name value)
      fun _ t' => t'.machine.frames.Mirrors id (enter name true scopes) := by
  have hgrows := Frames.grows_define t.machine.frames id name value
  have hmir' := hmir.define name value
  have hfits := hv _ (Toured.grows_of_frames (m := { t.machine with frames := _ }) hgrows) hmir'
  exact .of_ok rfl ⟨ht.define hfits hn, Toured.grows_of_frames hgrows, rfl⟩ hmir'

theorem faithful_define {name : String} {value : Value} {scopes : List Scope} (ht : t.Sound V)
    (hmir : t.machine.frames.Mirrors t.machine.current scopes) (hn : Bindable name)
    (hv : ∀ t', t.Grows t' → t'.machine.frames.Mirrors t.machine.current (enter name true scopes) →
      value.Fits V t') :
    Faithful V t (lift (Run.define name value)) (Run.define name value)
      fun _ t' => t'.machine.frames.Mirrors t.machine.current (enter name true scopes) := by
  have h := faithful_defineIn ht hmir (Value.suits_of_bindable hn value) hv
  exact ⟨h.same, h.ends⟩

theorem faithful_defineAt {d : Nat} {name : String} {value : Value} {scopes : List Scope}
    (ht : t.Sound V) (hmir : t.machine.frames.Mirrors t.machine.current scopes) (hd : d ≤ scopes.length)
    (hn : Bindable name) (hv : value.Fits V t) :
    Faithful V t (lift (Run.defineAt d name value)) (Run.defineAt d name value) fun _ _ => True := by
  obtain ⟨place, hplace⟩ := Frames.exists_ancestor? hmir ht.top_lt hd
  have hgrows : t.Grows { t with machine := { t.machine with frames := t.machine.frames.define place name value } } :=
    Toured.grows_of_frames (Frames.grows_define t.machine.frames place name value)
  have hsound := ht.define (hv.grow hgrows) (Value.suits_of_bindable hn value)
  have hrun : Run.defineAt d name value t.machine =
      .ok () { t.machine with frames := t.machine.frames.define place name value } := by
    simp only [Run.defineAt, hplace]
  exact .of_ok hrun ⟨hsound, hgrows, rfl⟩ trivial

theorem faithful_readAt {id : FrameId} {d : Nat} {name : String} {scopes : List Scope} (ht : t.Sound V)
    (hmir : t.machine.frames.Mirrors id scopes) (hr : Ready scopes d name) :
    Faithful V t (lift (Run.readAt id d name)) (Run.readAt id d name)
      fun v t' => v.Fits V t' ∧ v.Suits name := by
  obtain ⟨v, hget, hfits⟩ := ht.getAt hmir hr
  exact .of_ok (by simp only [Run.readAt, hget]) (.refl ht) hfits

theorem faithful_readGlobal (ht : t.Sound V) (token : Token) :
    Faithful V t (lift (Run.readGlobal token)) (Run.readGlobal token) fun v t' => v.Fits V t' := by
  cases hget : (t.machine.frames.bindingsOf Machine.globalFrame).get? token.lexeme with
  | none =>
    have hrun : Run.readGlobal token t.machine =
        .error (.error (some token.line) (.undefinedVariable token.lexeme)) t.machine := by
      simp only [Run.readGlobal, hget]
    exact .of_error hrun ht trivial
  | some v =>
    obtain ⟨top, htop, -⟩ := ht.top
    have hrun : Run.readGlobal token t.machine = .ok v t.machine := by simp only [Run.readGlobal, hget]
    rw [Frames.bindingsOf, htop] at hget
    exact .of_ok hrun (.refl ht) (ht.bound _ top token.lexeme v htop hget).1

theorem faithful_printLine (ht : t.Sound V) (s : String) :
    Faithful V t (lift (Run.printLine s)) (Run.printLine s) fun _ _ => True :=
  .of_ok rfl (ht.leads_of_eq rfl rfl rfl rfl) trivial

theorem faithful_readField? (ht : t.Sound V) (id : InstanceId) (name : String) :
    Faithful V t (lift (Run.readField? id name)) (Run.readField? id name)
      fun found t' => ∀ v ∈ found, v.Fits V t' := by
  refine .of_ok rfl (.refl ht) fun v hv => ?_
  obtain ⟨bindings, hb, hget⟩ := Option.bind_eq_some_iff.1 hv
  exact ht.fields id bindings name v hb hget

theorem faithful_writeField {value : Value} (ht : t.Sound V) (id : InstanceId) (name : String)
    (hv : value.Fits V t) :
    Faithful V t (lift (Run.writeField id name value)) (Run.writeField id name value) fun _ _ => True :=
  .of_ok rfl ⟨ht.setField id hv, Toured.grows_of_frames (.refl _), rfl⟩ trivial

end Rules

/-! ## Operators -/

section Operators

variable {V : List Visit} {t : Toured}

theorem faithful_unary (ht : t.Sound V) (operator : Token) {v : Value} (hv : v.Fits V t) :
    Faithful V t (lift (Run.unary operator v)) (Run.unary operator v) fun v t' => v.Fits V t' := by
  unfold Run.unary
  split
  · cases v with
    | number n =>
      obtain ⟨x, rfl⟩ := hv
      exact faithful_value ht ⟨-x, rfl⟩
    | _ => exact faithful_fail ht _ _
  · exact faithful_value ht trivial

/-- Arithmetic on doubles never goes beyond all doubles. -/
theorem faithful_result (ht : t.Sound V) (x : Float) :
    Faithful V t (lift (Run.result (some (.double x)))) (Run.result (some (.double x)))
      fun v t' => v.Fits V t' :=
  faithful_value ht ⟨x, rfl⟩

theorem faithful_plus (ht : t.Sound V) (operator : Token) {l r : Value} (hl : l.Fits V t) (hr : r.Fits V t) :
    Faithful V t (lift (Run.plus operator l r)) (Run.plus operator l r) fun v t' => v.Fits V t' := by
  unfold Run.plus
  split
  · obtain ⟨x, rfl⟩ := hl
    obtain ⟨y, rfl⟩ := hr
    exact faithful_result ht (x + y)
  · exact faithful_value ht trivial
  · exact faithful_value ht trivial
  · exact faithful_fail ht _ _

theorem faithful_numeric {k : Token.Kind} {operation : Number → Number → Run Value} (ht : t.Sound V)
    (h : Run.numeric? k = some operation) (x y : Float) :
    Faithful V t (lift (operation (.double x) (.double y))) (operation (.double x) (.double y))
      fun v t' => v.Fits V t' := by
  unfold Run.numeric? at h
  split at h
  all_goals first | (obtain rfl := Option.some.inj h) | cases h
  · exact faithful_result ht (x - y)
  · exact faithful_result ht (x * y)
  · exact faithful_result ht (x / y)
  all_goals exact faithful_value ht trivial

theorem faithful_binary (ht : t.Sound V) (operator : Token) {l r : Value} (hl : l.Fits V t) (hr : r.Fits V t) :
    Faithful V t (lift (Run.binary operator l r)) (Run.binary operator l r) fun v t' => v.Fits V t' := by
  unfold Run.binary
  split
  · next operation hop =>
    split
    · obtain ⟨x, rfl⟩ := hl
      obtain ⟨y, rfl⟩ := hr
      exact faithful_numeric ht hop x y
    · exact faithful_fail ht _ _
  · split
    · exact faithful_plus ht operator hl hr
    · exact faithful_value ht trivial
    · exact faithful_value ht trivial
    · exact faithful_fail ht _ _

end Operators

end Tour
end Offside
