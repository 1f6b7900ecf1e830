import Offside.Proofs.Machine.Origins

/-!
# Every `super` is explained

A step that takes notes leads from sound ones to sound ones: whatever is stored, passed or given back remembers
frames that were made as its code asks for them.  So the frames around a `super` trace the marks around it,
whenever it is evaluated, and what it comes to is explained by the notes.

* `Told.Leads` — what a step leads to;
* `Chronicle.Places` — steps that lead there, with one lemma for each step of the machine;
* `Chronicle.places_getSuper`, `Chronicle.places_defineClass` and others — the helpers of evaluation;
* `Chronicle.places_evaluateStep`, `Chronicle.places_executeStep` — one step over steps for the parts;
* `Chronicle.places_depth`, `Chronicle.places_program` — every depth, and whole programs.
-/

set_option autoImplicit false

namespace Offside

open Binding (Distance Mark ExprLies StmtLies StmtsLie RoutineLies MethodsLie classMarks routineLies_iff
  methodsLie_iff)
open Step (Ends)

/-! ## What a step leads to -/

/-- Notes that are sound again.  Nothing is lost, and the current frame is the same. -/
structure Told.Leads (t t' : Told) : Prop where
  sound : t'.Sound
  grows : t.Grows t'
  current : t'.machine.current = t.machine.current

namespace Told

variable {t t' t'' : Told}

theorem Leads.refl (h : t.Sound) : t.Leads t :=
  ⟨h, .refl t, rfl⟩

theorem Leads.trans (h : t.Leads t') (h' : t'.Leads t'') : t.Leads t'' :=
  ⟨h'.sound, h.grows.trans h'.grows, h'.current.trans h.current⟩

theorem Leads.traces (h : t.Leads t') {marks : List Mark} (ht : t.Traces t.machine.current marks) :
    t'.Traces t'.machine.current marks := by
  rw [h.current]
  exact ht.mono h.grows

/-- The machine changes, and holds nothing that is not placed. -/
theorem Sound.change (h : t.Sound) {m : Machine} (hframes : t.machine.frames.Steady m.frames)
    (hbindings : ∀ (id : FrameId) (frame : Frame Value), m.frames[id]? = some frame →
      ∀ entry ∈ frame.bindings, entry.2.Placed t)
    (hfields : ∀ (id : InstanceId) (bindings : Bindings Value), m.fields[id]? = some bindings →
      ∀ entry ∈ bindings, entry.2.Placed t) :
    Sound { t with machine := m } ∧ t.Grows { t with machine := m } := by
  have hgrows : t.Grows { t with machine := m } := ⟨List.prefix_refl _, hframes⟩
  refine ⟨⟨?_, ?_, h.sent, h.order, fun id hid => hframes.lt (h.made id hid)⟩, hgrows⟩
  · exact fun id frame hframe entry hentry => (hbindings id frame hframe entry hentry).mono hgrows
  · exact fun id bindings hget entry hentry => (hfields id bindings hget entry hentry).mono hgrows

/-- It does not matter which frame is the current one. -/
theorem Sound.move (h : t.Sound) (frame : FrameId) :
    Sound { t with machine := { t.machine with current := frame } } ∧
      t.Grows { t with machine := { t.machine with current := frame } } :=
  h.change (.refl _) h.bindings h.fields

theorem Sound.next (h : t.Sound) {m : Machine} (hframes : t.machine.frames.Steady m.frames)
    (hbindings : ∀ (id : FrameId) (frame : Frame Value), m.frames[id]? = some frame →
      ∀ entry ∈ frame.bindings, entry.2.Placed t)
    (hfields : ∀ (id : InstanceId) (bindings : Bindings Value), m.fields[id]? = some bindings →
      ∀ entry ∈ bindings, entry.2.Placed t)
    (hcurrent : m.current = t.machine.current) : t.Leads { t with machine := m } := by
  obtain ⟨hsound, hgrows⟩ := h.change hframes hbindings hfields
  exact ⟨hsound, hgrows, hcurrent⟩

/-- Only the heap matters. -/
theorem Sound.of_eq (h : t.Sound) {m : Machine} (hframes : m.frames = t.machine.frames)
    (hfields : m.fields = t.machine.fields) (hcurrent : m.current = t.machine.current) :
    t.Leads { t with machine := m } := by
  refine h.next ?_ ?_ ?_ hcurrent
  · rw [hframes]
    exact .refl _
  · rw [hframes]
    exact h.bindings
  · rw [hfields]
    exact h.fields

theorem Sound.add (h : t.Sound) (link : FrameId) :
    t.Leads { t with machine := { t.machine with frames := t.machine.frames.add (some link) } } := by
  refine h.next (Frames.steady_add _ _) ?_ h.fields rfl
  intro id frame hframe entry hentry
  rw [Frames.add, Array.getElem?_push] at hframe
  split at hframe
  · obtain rfl := Option.some.inj hframe
    exact absurd hentry List.not_mem_nil
  · exact h.bindings id frame hframe entry hentry

/-- A name is bound that code may bind, or that was not bound in the frame. -/
theorem Sound.define (h : t.Sound) {id : FrameId} {name : String} {value : Value}
    (hname : Bindable name ∨ (t.machine.frames.bindingsOf id).get? name = none) (hvalue : value.Placed t) :
    t.Leads { t with machine := { t.machine with frames := t.machine.frames.define id name value } } := by
  refine h.next (Frames.steady_define value hname) ?_ h.fields rfl
  intro other frame hframe entry hentry
  by_cases hother : id = other
  · subst hother
    rw [Frames.define, Array.getElem?_modify, if_pos rfl, Option.map_eq_some_iff] at hframe
    obtain ⟨before, hbefore, rfl⟩ := hframe
    rcases Bindings.mem_put hentry with rfl | hentry
    · exact hvalue
    · exact h.bindings id before hbefore entry hentry
  · rw [Frames.define_of_ne _ _ _ hother] at hframe
    exact h.bindings other frame hframe entry hentry

theorem Sound.newObject (h : t.Sound) :
    t.Leads { t with machine := { t.machine with fields := t.machine.fields.push [] } } := by
  refine h.next (.refl _) h.bindings ?_ rfl
  intro id bindings hget entry hentry
  rw [Array.getElem?_push] at hget
  split at hget
  · obtain rfl := Option.some.inj hget
    exact absurd hentry List.not_mem_nil
  · exact h.fields id bindings hget entry hentry

theorem Sound.setField (h : t.Sound) (id : InstanceId) (name : String) {value : Value} (hvalue : value.Placed t) :
    t.Leads { t with machine := { t.machine with
      fields := t.machine.fields.modify id fun bindings => bindings.put name value } } := by
  refine h.next (.refl _) h.bindings ?_ rfl
  intro other bindings hget entry hentry
  rw [Array.getElem?_modify] at hget
  split at hget
  · obtain ⟨before, hbefore, rfl⟩ := Option.map_eq_some_iff.1 hget
    rcases Bindings.mem_put hentry with rfl | hentry
    · exact hvalue
    · exact h.fields other before hbefore entry hentry
  · exact h.fields other bindings hget entry hentry

/-- One more note, of a `super` that is explained or of a frame that is later than those before. -/
theorem Sound.tell (h : t.Sound) {n : Note}
    (hframe : ∀ id ∈ n.frame?, (∀ other ∈ t.notes.filterMap Note.frame?, other < id) ∧ id < t.machine.frames.size)
    (hsent : ∀ e m, n = .sent e m → ∃ d : Dispatch, d.Explains t.notes e m) :
    t.Leads { t with notes := t.notes ++ [n] } := by
  have hgrows : t.Grows { t with notes := t.notes ++ [n] } := ⟨List.prefix_append _ _, .refl _⟩
  have hnotes : (t.notes ++ [n]).filterMap Note.frame? = t.notes.filterMap Note.frame? ++ n.frame?.toList := by
    rw [List.filterMap_append]
    cases n <;> rfl
  refine ⟨⟨?_, ?_, ?_, ?_, ?_⟩, hgrows, rfl⟩
  · exact fun id frame hframe entry hentry => (h.bindings id frame hframe entry hentry).mono hgrows
  · exact fun id bindings hget entry hentry => (h.fields id bindings hget entry hentry).mono hgrows
  · intro before e m hprefix
    rcases List.prefix_concat_iff.1 hprefix with heq | hprefix
    · obtain ⟨rfl, hn⟩ := List.append_inj' heq rfl
      exact hsent e m (List.cons.inj hn).1.symm
    · exact h.sent before e m hprefix
  · rw [hnotes, List.pairwise_append]
    refine ⟨h.order, ?_, fun other hother id hid => ?_⟩
    · cases n.frame? <;> simp
    · exact (hframe id (Option.mem_toList.1 hid)).1 other hother
  · intro id hid
    rw [hnotes] at hid
    rcases List.mem_append.1 hid with hid | hid
    · exact h.made id hid
    · exact (hframe id (Option.mem_toList.1 hid)).2

end Told

namespace Chronicle

/-! ## Steps that lead there -/

/-- However the step ends, it leads from `t` to sound notes.  A value that it yields satisfies `post`. -/
def Places (t : Told) {α : Type} (p : Chronicle α) (post : α → Told → Prop) : Prop :=
  Ends (p t) (fun a t' => t.Leads t' ∧ post a t') (fun _ t' => t.Leads t')

section Places

variable {t : Told} {α β : Type} {p : Chronicle α} {q : Run α} {post : α → Told → Prop}

theorem Places.of_ok {a : α} {t' : Told} (h : p t = .ok a t') (hl : t.Leads t') (hpost : post a t') :
    Places t p post :=
  Ends.of_ok h ⟨hl, hpost⟩

theorem Places.pure {a : α} (ht : t.Sound) (hpost : post a t) : Places t (pure a) post :=
  .of_ok rfl (.refl ht) hpost

theorem places_throw (ht : t.Sound) (e : Fault) : Places t (throw e : Chronicle α) post :=
  Told.Leads.refl ht

theorem Places.mono {post' : α → Told → Prop} (h : Places t p post)
    (hpost : ∀ a t', t.Leads t' → post a t' → post' a t') : Places t p post' :=
  Ends.mono h (fun a t' ha => ⟨ha.1, hpost a t' ha.1 ha.2⟩) fun _ _ he => he

/-- Steps in sequence: the second starts from whatever the first leads to. -/
theorem Places.bind {f : α → Chronicle β} {next : β → Told → Prop} (h : Places t p post)
    (hf : ∀ a t', t.Leads t' → post a t' → Places t' (f a) next) : Places t (p >>= f) next := by
  refine Ends.bind h fun a t' ha => ?_
  exact Ends.mono (hf a t' ha.1 ha.2) (fun _ _ hb => ⟨ha.1.trans hb.1, hb.2⟩) fun _ _ he => ha.1.trans he

/-- A step in another frame comes back to the current one, however it ends. -/
theorem Places.inFrame {frame : FrameId}
    (h : Places { t with machine := { t.machine with current := frame } } p post)
    (hpost : ∀ a t', t'.Sound → post a t' →
      post a { t' with machine := { t'.machine with current := t.machine.current } }) :
    Places t (inFrame frame p) post := by
  have hback : ∀ t', Told.Leads { t with machine := { t.machine with current := frame } } t' →
      t.Leads { t' with machine := { t'.machine with current := t.machine.current } } := fun t' hl =>
    ⟨(hl.sound.move _).1, ⟨hl.grows.notes, hl.grows.frames⟩, rfl⟩
  unfold Places at h ⊢
  unfold Chronicle.inFrame
  cases hp : p { t with machine := { t.machine with current := frame } } with
  | ok a t' =>
    obtain ⟨hl, ha⟩ := h.value_of_ok hp
    exact ⟨hback t' hl, hpost a t' hl.sound ha⟩
  | error e t' => exact hback t' (h.fault_of_error hp)

theorem places_quietly (h : Ends (q t.machine) (fun a m => t.Leads { t with machine := m } ∧
      post a { t with machine := m }) (fun _ m => t.Leads { t with machine := m })) :
    Places t (quietly q) post := by
  unfold Places quietly
  cases hq : q t.machine with
  | ok a m =>
    rw [hq] at h
    exact h
  | error e m =>
    rw [hq] at h
    exact h

theorem quietly_bind (q : Run α) (f : α → Run β) :
    quietly (q >>= f) = quietly q >>= fun a => quietly (f a) := by
  funext t
  cases hq : q t.machine with
  | ok a m =>
    have hquiet : quietly q t = .ok a { t with machine := m } := by simp only [quietly, hq]
    rw [Step.bind_of_ok hquiet]
    simp only [quietly, Step.bind_of_ok hq]
  | error e m =>
    have hquiet : quietly q t = .error e { t with machine := m } := by simp only [quietly, hq]
    rw [Step.bind_of_error hquiet]
    simp only [quietly, Step.bind_of_error hq]

/-- A step that leaves the machine as it is and yields nothing that is not placed. -/
theorem places_reading (ht : t.Sound) (h : Ends (q t.machine) (fun a m => m = t.machine ∧ post a t)
    (fun _ m => m = t.machine)) : Places t (quietly q) post := by
  refine places_quietly (h.mono ?_ ?_)
  · rintro a _ ⟨rfl, ha⟩
    exact ⟨.refl ht, ha⟩
  · rintro e _ rfl
    exact .refl ht

/-- What a quiet step yields is what the step yields without notes. -/
theorem Places.ran (h : Places t (quietly q) post) :
    Places t (quietly q) fun a t' => post a t' ∧ q t.machine = .ok a t'.machine := by
  unfold Places quietly at h ⊢
  cases hq : q t.machine with
  | ok a m =>
    rw [hq] at h
    exact ⟨h.1, h.2, rfl⟩
  | error e m =>
    rw [hq] at h
    exact h

/-! ### Steps of the machine -/

theorem places_machine (ht : t.Sound) : Places t machine fun m t' => m = t.machine ∧ t' = t :=
  .of_ok rfl (.refl ht) ⟨rfl, rfl⟩

theorem places_fail (ht : t.Sound) (token : Token) (problem : Problem) :
    Places t (quietly (Run.fail token problem : Run α)) post :=
  places_reading ht rfl

theorem places_currentFrame (ht : t.Sound) :
    Places t (quietly Run.currentFrame) fun id t' => id = t.machine.current ∧ t' = t :=
  places_reading ht ⟨rfl, rfl, rfl⟩

theorem places_newSerial (ht : t.Sound) : Places t (quietly Run.newSerial) fun _ _ => True :=
  .of_ok rfl (ht.of_eq rfl rfl rfl) trivial

theorem places_newFrame (ht : t.Sound) (link : FrameId) :
    Places t (quietly (Run.newFrame link)) fun id t' => id = t.machine.frames.size ∧
      t' = { t with machine := { t.machine with frames := t.machine.frames.add (some link) } } :=
  .of_ok rfl (ht.add link) ⟨rfl, rfl⟩

theorem places_newInstance (ht : t.Sound) : Places t (quietly Run.newInstance) fun _ _ => True :=
  .of_ok rfl ht.newObject trivial

theorem places_defineIn (ht : t.Sound) {id : FrameId} {name : String} {value : Value}
    (hname : Bindable name ∨ (t.machine.frames.bindingsOf id).get? name = none) (hvalue : value.Placed t) :
    Places t (quietly (Run.defineIn id name value)) fun _ t' =>
      t' = { t with machine := { t.machine with frames := t.machine.frames.define id name value } } :=
  .of_ok rfl (ht.define hname hvalue) rfl

theorem places_define (ht : t.Sound) {name : String} {value : Value} (hname : Bindable name)
    (hvalue : value.Placed t) : Places t (quietly (Run.define name value)) fun _ _ => True :=
  .of_ok rfl (ht.define (.inl hname) hvalue) trivial

theorem places_defineAt (ht : t.Sound) (d : Nat) {name : String} {value : Value} (hname : Bindable name)
    (hvalue : value.Placed t) : Places t (quietly (Run.defineAt d name value)) fun _ _ => True := by
  refine places_quietly ?_
  unfold Run.defineAt
  cases t.machine.frames.ancestor? d t.machine.current with
  | none => exact .refl ht
  | some place => exact ⟨ht.define (.inl hname) hvalue, trivial⟩

theorem placed_of_bindingsOf (ht : t.Sound) {id : FrameId} {name : String} {v : Value}
    (hv : (t.machine.frames.bindingsOf id).get? name = some v) : v.Placed t := by
  unfold Frames.bindingsOf at hv
  split at hv
  · cases hv
  · next frame hframe => exact ht.bindings id frame hframe _ (Bindings.mem_of_get? hv)

theorem places_readAt (ht : t.Sound) (id : FrameId) (d : Nat) (name : String) :
    Places t (quietly (Run.readAt id d name)) fun v t' =>
      v.Placed t' ∧ t' = t ∧ t.machine.frames.getAt id d name = .ok v := by
  refine places_reading ht ?_
  unfold Run.readAt
  cases hget : t.machine.frames.getAt id d name with
  | error absent => rfl
  | ok v =>
    refine ⟨rfl, ?_, rfl, rfl⟩
    unfold Frames.getAt at hget
    split at hget
    · cases hget
    · split at hget
      · cases hget
      · next v' hv =>
        cases hget
        exact placed_of_bindingsOf ht hv

theorem places_readGlobal (ht : t.Sound) (token : Token) :
    Places t (quietly (Run.readGlobal token)) fun v t' => v.Placed t' ∧ t' = t := by
  refine places_reading ht ?_
  unfold Run.readGlobal
  cases hget : (t.machine.frames.bindingsOf Machine.globalFrame).get? token.lexeme with
  | none => rfl
  | some v => exact ⟨rfl, placed_of_bindingsOf ht hget, rfl⟩

theorem places_printLine (ht : t.Sound) (s : String) : Places t (quietly (Run.printLine s)) fun _ _ => True :=
  .of_ok rfl (ht.of_eq rfl rfl rfl) trivial

theorem places_readField? (ht : t.Sound) (id : InstanceId) (name : String) :
    Places t (quietly (Run.readField? id name)) fun found t' => ∀ v ∈ found, v.Placed t' := by
  refine places_reading ht ⟨rfl, fun v hv => ?_⟩
  obtain ⟨bindings, hbindings, hget⟩ := Option.bind_eq_some_iff.1 hv
  exact ht.fields id bindings hbindings _ (Bindings.mem_of_get? hget)

theorem places_writeField (ht : t.Sound) (id : InstanceId) (name : String) {value : Value}
    (hvalue : value.Placed t) : Places t (quietly (Run.writeField id name value)) fun _ _ => True :=
  .of_ok rfl (ht.setField id name hvalue) trivial

theorem places_settles (ht : t.Sound) {q : Run Value} (h : Run.Settles q) :
    Places t (quietly q) fun v t' => v.Placed t' := by
  cases h with
  | plain v h => exact .pure ht (Value.placed_plain h.closures)
  | stop e => exact places_reading ht rfl

theorem places_now (ht : t.Sound) : Places t (quietly Run.now) fun _ _ => True :=
  places_reading ht ⟨rfl, trivial⟩

theorem places_fieldOf? (ht : t.Sound) (v : Value) (name : String) :
    Places t (quietly (Run.fieldOf? v name)) fun found t' => ∀ w ∈ found, w.Placed t' := by
  cases v with
  | object id c => exact places_readField? ht id name
  | _ => exact places_reading ht ⟨rfl, nofun⟩

theorem places_setFieldOf (ht : t.Sound) (v : Value) (name : String) {value : Value} (hvalue : value.Placed t) :
    Places t (quietly (Run.setFieldOf v name value)) fun _ _ => True := by
  cases v with
  | object id c => exact places_writeField ht id name hvalue
  | _ => exact places_reading ht ⟨rfl, trivial⟩

theorem places_run (ht : t.Sound) (script : Native.Script) {hand : List Value} (hhand : ∀ v ∈ hand, v.Placed t) :
    Places t (quietly (script.run hand)) fun result t' => ∀ v, result = .ok v → v.Placed t' := by
  induction script generalizing t hand with
  | give i =>
    have hheld : (Native.held hand i).Placed t := Native.held_of_forall hhand trivial i
    exact .pure ht fun _ hok => Except.ok.inj hok ▸ hheld
  | refuse text => exact .pure ht nofun
  | raise line problem => exact places_reading ht rfl
  | overflow => exact places_reading ht rfl
  | look i next ih => exact ih _ ht hhand
  | compare i j next ih => exact ih _ ht hhand
  | time next ih =>
    rw [Native.Script.run, quietly_bind]
    exact .bind (places_now ht) fun x t₁ h₁ _ => ih x h₁.sound fun v hv => (hhand v hv).mono h₁.grows
  | hold d next ih =>
    have hd : (Value.ofDatum d).Placed t := Value.placed_plain (Value.isPlain_ofDatum d).closures
    exact ih ht (List.forall_mem_append.2 ⟨hhand, List.forall_mem_singleton.2 hd⟩)
  | make next ih =>
    rw [Native.Script.run, quietly_bind]
    refine .bind (places_newSerial ht) fun serial t₁ h₁ _ => ?_
    have hmade : (Value.foreign serial).Placed t₁ := Value.placed_plain rfl
    exact ih h₁.sound (List.forall_mem_append.2
      ⟨fun v hv => (hhand v hv).mono h₁.grows, List.forall_mem_singleton.2 hmade⟩)
  | read i field next ih =>
    rw [Native.Script.run, quietly_bind]
    refine .bind (places_fieldOf? ht _ field) fun found t₁ h₁ hfound => ?_
    exact ih _ h₁.sound (List.forall_mem_append.2
      ⟨fun v hv => (hhand v hv).mono h₁.grows, fun v hv => hfound v (Option.mem_toList.1 hv)⟩)
  | write i field j next ih =>
    rw [Native.Script.run, quietly_bind]
    have hvalue : (Native.held hand j).Placed t := Native.held_of_forall hhand trivial j
    refine .bind (places_setFieldOf ht _ field hvalue) fun _ t₁ h₁ _ => ?_
    exact ih h₁.sound fun v hv => (hhand v hv).mono h₁.grows
  | print line next ih =>
    rw [Native.Script.run, quietly_bind]
    exact .bind (places_printLine ht line) fun _ t₁ h₁ _ => ih h₁.sound fun v hv => (hhand v hv).mono h₁.grows

theorem places_callNative (ht : t.Sound) (paren : Token) (f : Native) {arguments : List Value}
    (hargs : ∀ v ∈ arguments, v.Placed t) :
    Places t (quietly (Run.callNative paren f arguments)) fun v t' => v.Placed t' := by
  rw [Run.callNative, quietly_bind]
  refine .bind (places_run ht f.script hargs) fun result t₁ h₁ hresult => ?_
  cases result with
  | ok v => exact .pure h₁.sound (hresult v rfl)
  | error text => exact places_fail h₁.sound _ _

theorem places_lookUp (ht : t.Sound) (token : Token) (site : Distance) :
    Places t (quietly (Run.lookUp token site))
      fun v t' => v.Placed t' ∧ t' = t ∧ Run.lookUp token site t.machine = .ok v t.machine := by
  have hlook : Places t (quietly (Run.lookUp token site)) fun v t' => v.Placed t' ∧ t' = t := by
    cases site with
    | none => exact places_readGlobal ht token
    | some d =>
      rw [Run.lookUp, quietly_bind]
      refine .bind (places_currentFrame ht) ?_
      rintro _ t - ⟨rfl, rfl⟩
      exact (places_readAt ht _ d token.lexeme).mono fun _ _ _ hv => ⟨hv.1, hv.2.1⟩
  refine hlook.ran.mono ?_
  rintro v t - ⟨⟨hv, rfl⟩, hrun⟩
  exact ⟨hv, rfl, hrun⟩

theorem places_assign (ht : t.Sound) {name : String} {value : Value} (hname : Bindable name)
    (hvalue : value.Placed t) (site : Distance) : Places t (quietly (Run.assign name value site)) fun _ _ => True := by
  cases site with
  | none => exact places_define ht hname hvalue
  | some d => exact places_defineAt ht d hname hvalue

theorem places_bindParams (ht : t.Sound) (frame : FrameId) (params : List Token) (arguments : List Value)
    (hparams : ∀ t ∈ params, Bindable t.lexeme) (hargs : ∀ v ∈ arguments, v.Placed t) :
    Places t (quietly (Run.bindParams frame params arguments)) fun _ _ => True := by
  induction params generalizing t arguments with
  | nil => exact .pure ht trivial
  | cons param params ih =>
    cases arguments with
    | nil => exact .pure ht trivial
    | cons argument arguments =>
      obtain ⟨hparam, hparams⟩ := List.forall_mem_cons.1 hparams
      obtain ⟨harg, hargs⟩ := List.forall_mem_cons.1 hargs
      rw [Run.bindParams, quietly_bind]
      refine .bind (places_defineIn ht (.inl hparam) harg) fun _ t₁ h₁ _ => ?_
      exact ih h₁.sound arguments hparams fun v hv => (hargs v hv).mono h₁.grows

/-- A note of a frame that was made behind those that were noted before. -/
theorem places_note (ht : t.Sound) {n : Note}
    (hframe : ∀ id ∈ n.frame?, (∀ other ∈ t.notes.filterMap Note.frame?, other < id) ∧ id < t.machine.frames.size)
    (hsent : n.isSent = false) : Places t (note n) fun _ t' => t' = { t with notes := t.notes ++ [n] } := by
  refine .of_ok rfl (ht.tell hframe ?_) rfl
  rintro e m rfl
  cases hsent

end Places

/-! ## Evaluation -/

/-- Evaluating an expression where the frames trace the marks around it leads to sound notes, and a variable is
looked up. -/
structure EvaluatesLexically (evaluate : Expr Distance → Chronicle Value) : Prop where
  places : ∀ (t : Told) (marks : List Mark) (e : Expr Distance), t.Sound →
    t.Traces t.machine.current marks → ExprLies marks e → Places t (evaluate e) fun v t' => v.Placed t'
  name : ∀ (t : Told) (token : Token) (site : Distance), t.Sound → Places t (evaluate (.name token site))
    fun v t' => v.Placed t' ∧ t' = t ∧ Run.lookUp token site t.machine = .ok v t.machine

/-- Executing a statement where the frames trace the marks around it leads to sound notes. -/
def ExecutesLexically (execute : Stmt Distance → Chronicle Flow) : Prop :=
  ∀ (t : Told) (marks : List Mark) (s : Stmt Distance), t.Sound → t.Traces t.machine.current marks →
    StmtLies marks s → Places t (execute s) fun flow t' => flow.Placed t'

section Parts

variable {t : Told} {marks : List Mark} {evaluate : Expr Distance → Chronicle Value}
  {execute : Stmt Distance → Chronicle Flow}

/-! ### Lists of expressions and statements -/

theorem places_evaluateAll (heval : EvaluatesLexically evaluate) (es : List (Expr Distance)) (ht : t.Sound)
    (hhere : t.Traces t.machine.current marks) (h : ∀ e ∈ es, ExprLies marks e) :
    Places t (evaluateAll evaluate es) fun vs t' => ∀ v ∈ vs, v.Placed t' := by
  induction es generalizing t with
  | nil => exact .pure ht fun _ hv => absurd hv List.not_mem_nil
  | cons e es ih =>
    obtain ⟨he, hes⟩ := List.forall_mem_cons.1 h
    refine .bind (heval.places t marks e ht hhere he) fun v t₁ h₁ hv => ?_
    refine .bind (ih h₁.sound (h₁.traces hhere) hes) fun vs t₂ h₂ hvs => ?_
    exact .pure h₂.sound (List.forall_mem_cons.2 ⟨hv.mono h₂.grows, hvs⟩)

theorem places_executeAll (hexec : ExecutesLexically execute) (ss : List (Stmt Distance)) (ht : t.Sound)
    (hhere : t.Traces t.machine.current marks) (h : StmtsLie marks ss) :
    Places t (executeAll execute ss) fun flow t' => flow.Placed t' := by
  induction ss generalizing t with
  | nil => exact .pure ht trivial
  | cons s ss ih =>
    refine .bind (hexec t marks s ht hhere h.1) fun flow t₁ h₁ hflow => ?_
    cases flow with
    | next => exact ih h₁.sound (h₁.traces hhere) h.2
    | back v => exact .pure h₁.sound hflow

/-- Statements in a frame that traces the marks around them. -/
theorem places_inFrame (hexec : ExecutesLexically execute) {frame : FrameId} {ss : List (Stmt Distance)}
    (ht : t.Sound) (hframe : t.Traces frame marks) (h : StmtsLie marks ss) :
    Places t (inFrame frame (executeAll execute ss)) fun flow t' => flow.Placed t' := by
  obtain ⟨hmoved, hgrows⟩ := ht.move frame
  refine .inFrame (places_executeAll hexec ss hmoved (hframe.mono hgrows) h) fun flow t' ht' hflow => ?_
  cases flow with
  | next => trivial
  | back v => exact Value.Placed.mono hflow (ht'.move _).2

theorem places_executeBlock (hexec : ExecutesLexically execute) (body : List (Stmt Distance)) (ht : t.Sound)
    (hhere : t.Traces t.machine.current marks) (h : StmtsLie (.block :: marks) body) :
    Places t (executeBlock execute body) fun flow t' => flow.Placed t' := by
  refine .bind (places_currentFrame ht) ?_
  rintro _ t - ⟨rfl, rfl⟩
  refine .bind (places_newFrame ht _) ?_
  rintro _ t₁ h₁ ⟨rfl, rfl⟩
  refine places_inFrame hexec h₁.sound ?_ h
  exact ⟨_, _, Frames.getElem?_add_size _ _, rfl, trivial, hhere.mono h₁.grows⟩

theorem places_repeatWhile {test : Chronicle Bool} {body : Chronicle Flow}
    (htest : ∀ t : Told, t.Sound → t.Traces t.machine.current marks → Places t test fun _ _ => True)
    (hbody : ∀ t : Told, t.Sound → t.Traces t.machine.current marks →
      Places t body fun flow t' => flow.Placed t')
    (limit : Nat) (ht : t.Sound) (hhere : t.Traces t.machine.current marks) :
    Places t (repeatWhile test body limit) fun flow t' => flow.Placed t' := by
  induction limit generalizing t with
  | zero => exact places_throw ht _
  | succ limit ih =>
    refine .bind (htest t ht hhere) fun holds t₁ h₁ _ => ?_
    have hhere₁ := h₁.traces hhere
    cases holds with
    | false => exact .pure h₁.sound trivial
    | true =>
      refine .bind (hbody t₁ h₁.sound hhere₁) fun flow t₂ h₂ hflow => ?_
      cases flow with
      | next => exact ih h₂.sound (h₂.traces hhere₁)
      | back v => exact .pure h₂.sound hflow

/-! ### Calls -/

/-- A method is bound in a frame of its own, of which the note tells. -/
theorem places_bindMethod {f : Closure} {id : InstanceId} {c : Class} (ht : t.Sound)
    (hf : f.Placed t [.this f.routine]) (hthis : (Value.object id c).Placed t) :
    Places t (bindMethod f (.object id c)) fun g t' => g.Placed t' [] := by
  obtain ⟨marks, htraces, hlies⟩ := hf
  refine .bind (places_newFrame ht f.frame) ?_
  rintro _ t₁ h₁ ⟨rfl, rfl⟩
  refine .bind (places_defineIn h₁.sound (.inr (Frames.get?_add_size _ _ _)) (hthis.mono h₁.grows)) ?_
  rintro _ t₂ h₂ rfl
  refine .bind (places_note (n := .bound f (.object id c) t.machine.frames.size) h₂.sound ?_ rfl) ?_
  · rintro _ ⟨⟩
    exact ⟨ht.made, by simp⟩
  rintro _ t₃ h₃ rfl
  refine .bind (places_newSerial h₃.sound) fun serial t₄ h₄ _ => ?_
  refine .pure h₄.sound ⟨.this f.routine :: marks, Told.Traces.mono ?_ h₄.grows, hlies⟩
  exact ⟨_, _, Frames.getElem?_define_self (Frames.getElem?_add_size _ _) _ _, rfl,
    ⟨f, id, c, List.mem_append_right _ List.mem_cons_self, rfl, rfl, rfl⟩,
    htraces.mono ((h₁.grows.trans h₂.grows).trans h₃.grows)⟩

/-- A function is executed in a frame of its own, of which the note tells. -/
theorem places_callClosure (hexec : ExecutesLexically execute) {f : Closure} {arguments : List Value}
    (ht : t.Sound) (hf : f.Placed t []) (hargs : ∀ v ∈ arguments, v.Placed t) :
    Places t (callClosure execute f arguments) fun v t' => v.Placed t' := by
  obtain ⟨marks, htraces, hlies⟩ := hf
  obtain ⟨hparams, hbody⟩ := routineLies_iff.1 hlies
  refine .bind (places_newFrame ht f.frame) ?_
  rintro _ t₁ h₁ ⟨rfl, rfl⟩
  refine .bind (places_note (n := .called f t.machine.frames.size) h₁.sound ?_ rfl) ?_
  · rintro _ ⟨⟩
    exact ⟨ht.made, by simp⟩
  rintro _ t₂ h₂ rfl
  have hframe : Told.Traces _ t.machine.frames.size (.call f.routine :: marks) :=
    ⟨_, _, Frames.getElem?_add_size _ _, rfl, ⟨f, List.mem_append_right _ List.mem_cons_self, rfl, rfl⟩,
      htraces.mono (h₁.grows.trans h₂.grows)⟩
  refine .bind (places_bindParams h₂.sound _ f.routine.params arguments hparams
    fun v hv => (hargs v hv).mono (h₁.grows.trans h₂.grows)) fun _ t₃ h₃ _ => ?_
  refine .bind (places_inFrame hexec h₃.sound (hframe.mono h₃.grows) hbody) fun flow t₄ h₄ hflow => ?_
  split
  · exact (places_readAt h₄.sound f.frame 0 "this").mono fun _ _ _ hv => hv.1
  · cases flow with
    | next => exact .pure h₄.sound trivial
    | back v => exact .pure h₄.sound hflow

theorem places_callClass (hexec : ExecutesLexically execute) {c : Class} {arguments : List Value}
    (ht : t.Sound) (hc : (Value.classValue c).Placed t) (hargs : ∀ v ∈ arguments, v.Placed t) :
    Places t (callClass execute c arguments) fun v t' => v.Placed t' := by
  refine .bind (places_newInstance ht) fun id t₁ h₁ _ => ?_
  have hmade : (Value.object id c).Placed t₁ := Value.Placed.mono hc h₁.grows
  cases hinit : c.initializer? with
  | none => exact .pure h₁.sound hmade
  | some method =>
    refine .bind (places_bindMethod h₁.sound (Value.Placed.method hmade hinit) hmade) fun f t₂ h₂ hf => ?_
    refine .bind (places_callClosure hexec h₂.sound hf
      fun v hv => (hargs v hv).mono (h₁.grows.trans h₂.grows)) fun _ t₃ h₃ _ => ?_
    exact .pure h₃.sound (hmade.mono (h₂.grows.trans h₃.grows))

theorem places_call (hexec : ExecutesLexically execute) (paren : Token) {callee : Value}
    {arguments : List Value} (ht : t.Sound) (hcallee : callee.Placed t) (hargs : ∀ v ∈ arguments, v.Placed t) :
    Places t (call execute paren callee arguments) fun v t' => v.Placed t' := by
  cases callee with
  | function f => exact places_callClosure hexec ht hcallee hargs
  | native serial f => exact places_callNative ht paren f hargs
  | classValue c => exact places_callClass hexec ht hcallee hargs
  | _ => exact places_fail ht paren .notCallable

theorem places_evaluateCall (heval : EvaluatesLexically evaluate) (hexec : ExecutesLexically execute)
    {callee : Expr Distance} (paren : Token) {arguments : List (Expr Distance)} (ht : t.Sound)
    (hhere : t.Traces t.machine.current marks) (hcallee : ExprLies marks callee)
    (harguments : ∀ e ∈ arguments, ExprLies marks e) :
    Places t (evaluateCall evaluate execute callee paren arguments) fun v t' => v.Placed t' := by
  refine .bind (heval.places t marks callee ht hhere hcallee) fun f t₁ h₁ hf => ?_
  cases f.arity? with
  | none => exact places_fail h₁.sound _ _
  | some arity =>
    simp only
    split
    · refine .bind (places_evaluateAll heval arguments h₁.sound (h₁.traces hhere) harguments)
        fun values t₂ h₂ hvalues => ?_
      exact places_call hexec paren h₂.sound (hf.mono h₂.grows) hvalues
    · exact places_fail h₁.sound _ _

/-! ### Fields and methods -/

theorem places_getField (field : Token) {target : Value} (ht : t.Sound) (htarget : target.Placed t) :
    Places t (getField field target) fun v t' => v.Placed t' := by
  cases target with
  | object id c =>
    refine .bind (places_readField? ht id field.lexeme) fun found t₁ h₁ hfound => ?_
    cases found with
    | some v => exact .pure h₁.sound (hfound v rfl)
    | none =>
      have htarget₁ := htarget.mono h₁.grows
      cases hmethod : c.findMethod? field.lexeme with
      | none => exact places_fail h₁.sound _ _
      | some method =>
        refine .bind (places_bindMethod h₁.sound (Value.Placed.method htarget₁ hmethod) htarget₁)
          fun f t₂ h₂ hf => ?_
        exact .pure h₂.sound hf
  | _ => exact places_fail ht field .noProperties

/-- `super` binds the method to an instance. -/
theorem places_getSuper {keyword name : Token} {site : Distance} (ht : t.Sound)
    (hhere : t.Traces t.machine.current marks) (h : Binding.SuperAt marks (.superRef keyword name site)) :
    Places t (getSuper name site) fun v t' => v.Placed t' := by
  obtain ⟨inner, r, declaration, hreaches, -, _, _, heq⟩ := h
  obtain ⟨rfl, rfl, rfl⟩ := Expr.superRef.inj heq
  obtain ⟨d, hstands, -, -⟩ := hhere.stands hreaches
  refine .bind (places_currentFrame ht) ?_
  rintro _ t - ⟨rfl, rfl⟩
  refine .bind (places_readAt ht _ _ "super") ?_
  rintro parent t - ⟨hparent, rfl, hsuper⟩
  refine .bind (places_readAt ht _ _ "this") ?_
  rintro this t - ⟨hplaced, rfl, hthis⟩
  obtain rfl : Value.classValue d.parent = parent := Except.ok.inj (hstands.super.symm.trans hsuper)
  obtain rfl : d.this = this := Except.ok.inj (hstands.this.symm.trans hthis)
  cases hmethod : d.parent.findMethod? name.lexeme with
  | none =>
    simp only [hmethod]
    exact places_fail ht _ _
  | some f =>
    simp only [hmethod]
    refine .bind (places_bindMethod ht (Value.Placed.method hparent hmethod) hplaced) fun g t₁ h₁ hg => ?_
    exact .pure h₁.sound hg

/-! ### Classes -/

/-- The superclass of a declaration is what its variable holds. -/
def Held (m : Machine) : Option (Token × Distance) → Option Class → Prop
  | none, none => True
  | some (token, site), some c => Run.lookUp token site m = .ok (.classValue c) m
  | _, _ => False

theorem places_superclassOf (heval : EvaluatesLexically evaluate) (parent : Option (Token × Distance))
    (ht : t.Sound) : Places t (superclassOf parent evaluate) fun parentClass t' => t' = t ∧
      Held t.machine parent parentClass ∧ ∀ c ∈ parentClass, (Value.classValue c).Placed t := by
  rcases parent with _ | ⟨token, site⟩
  · exact .pure ht ⟨rfl, trivial, fun _ hc => nomatch hc⟩
  · refine .bind (heval.name t token site ht) ?_
    rintro v t - ⟨hv, rfl, hrun⟩
    cases v with
    | classValue c => exact .pure ht ⟨rfl, hrun, fun _ hc => Option.some.inj hc ▸ hv⟩
    | _ => exact places_fail ht token .superclassNotClass

/-- The frame that binds `super`, if there is a superclass. -/
theorem places_methodFrame (ht : t.Sound) {parentClass : Option Class}
    (h : ∀ c ∈ parentClass, (Value.classValue c).Placed t) :
    Places t (quietly (Run.methodFrame parentClass)) fun frame t' => match parentClass with
      | none => frame = t.machine.current ∧ t' = t
      | some c => frame = t.machine.frames.size ∧ t' = { t with machine := { t.machine with
          frames := (t.machine.frames.add (some t.machine.current)).define t.machine.frames.size "super"
            (.classValue c) } } := by
  cases parentClass with
  | none => exact .of_ok rfl (.refl ht) ⟨rfl, rfl⟩
  | some c =>
    have h₁ := ht.add t.machine.current
    have h₂ := h₁.sound.define (.inr (Frames.get?_add_size _ _ "super")) ((h c rfl).mono h₁.grows)
    exact .of_ok rfl (h₁.trans h₂) ⟨rfl, rfl⟩

theorem places_makeMethods {frame : FrameId} (rs : List (Routine Distance)) (table : Bindings Closure)
    (ht : t.Sound) (hframe : t.Traces frame marks) (h : ∀ r ∈ rs, RoutineLies (.this r :: marks) r)
    (htable : ∀ entry ∈ table, entry.2.Placed t [.this entry.2.routine]) :
    Places t (quietly (Run.makeMethods frame rs table)) fun table' t' =>
      ∀ entry ∈ table', entry.2.Placed t' [.this entry.2.routine] := by
  induction rs generalizing t table with
  | nil => exact .pure ht htable
  | cons r rs ih =>
    obtain ⟨hr, hrs⟩ := List.forall_mem_cons.1 h
    rw [Run.makeMethods, quietly_bind]
    refine .bind (places_newSerial ht) fun serial t₁ h₁ _ => ?_
    have hframe₁ := hframe.mono h₁.grows
    refine ih _ h₁.sound hframe₁ hrs fun entry hentry => ?_
    rcases Bindings.mem_put hentry with rfl | hentry
    · exact ⟨marks, hframe₁, hr⟩
    · exact (htable entry hentry).mono h₁.grows

/-- The class is complete once its methods are made. -/
theorem places_completeClass {frame : FrameId} {name : Token} {methods : List (Routine Distance)}
    {ancestors : List Class.Layer} (ht : t.Sound) (hframe : t.Traces frame marks) (hname : Bindable name.lexeme)
    (h : MethodsLie marks methods)
    (hancestors : ∀ layer ∈ ancestors, ∀ entry ∈ layer.methods, entry.2.Placed t [.this entry.2.routine]) :
    Places t (quietly (Run.makeMethods frame methods []) >>= fun table => quietly Run.newSerial >>= fun serial =>
      quietly (Run.define name.lexeme (.classValue ⟨⟨serial, name.lexeme, table⟩, ancestors⟩)))
      fun _ _ => True := by
  refine .bind (places_makeMethods methods [] ht hframe (methodsLie_iff.1 h)
    fun _ hentry => absurd hentry List.not_mem_nil) fun table t₁ h₁ htable => ?_
  refine .bind (places_newSerial h₁.sound) fun serial t₂ h₂ _ => ?_
  refine places_define h₂.sound hname fun f hf => ?_
  obtain ⟨layer, hlayer, hf⟩ := List.mem_flatMap.1 hf
  obtain ⟨entry, hentry, rfl⟩ := List.mem_map.1 hf
  rcases List.mem_cons.1 hlayer with rfl | hlayer
  · exact (htable entry hentry).mono h₂.grows
  · exact (hancestors layer hlayer entry hentry).mono (h₁.grows.trans h₂.grows)

theorem places_defineClass (heval : EvaluatesLexically evaluate) {name : Token}
    {parent : Option (Token × Distance)} {methods : List (Routine Distance)} (ht : t.Sound)
    (hhere : t.Traces t.machine.current marks) (hname : Bindable name.lexeme)
    (h : MethodsLie (classMarks name parent methods marks) methods) :
    Places t (defineClass evaluate name parent methods) fun _ _ => True := by
  refine .bind (places_machine ht) ?_
  rintro start t - ⟨rfl, rfl⟩
  refine .bind (places_superclassOf heval parent ht) ?_
  rintro parentClass t - ⟨rfl, hheld, hclass⟩
  refine .bind (places_define ht hname trivial) fun _ t₁ h₁ _ => ?_
  refine .bind (places_methodFrame h₁.sound fun c hc => (hclass c hc).mono h₁.grows) fun frame t₂ h₂ hframe => ?_
  cases parent with
  | none =>
    cases parentClass with
    | some c => exact hheld.elim
    | none =>
      obtain ⟨rfl, rfl⟩ := hframe
      exact places_completeClass h₁.sound (h₁.traces hhere) hname h fun _ hlayer => absurd hlayer List.not_mem_nil
  | some p =>
    cases parentClass with
    | none => exact hheld.elim
    | some c =>
      obtain ⟨rfl, rfl⟩ := hframe
      refine .bind (places_note (n := .declared ⟨name, p, methods⟩ t.machine t₁.machine.frames.size) h₂.sound
        ?_ rfl) ?_
      · rintro _ ⟨⟩
        exact ⟨h₁.sound.made, by simp⟩
      rintro _ t₃ h₃ rfl
      refine places_completeClass h₃.sound ?_ hname h fun layer hlayer entry hentry => ?_
      · exact ⟨_, _, Frames.getElem?_define_self (Frames.getElem?_add_size _ _) _ _, rfl,
          ⟨t.machine, c, List.mem_append_right _ List.mem_cons_self, hheld, rfl⟩,
          (h₁.traces hhere).mono (h₂.grows.trans h₃.grows)⟩
      · have hplaced := Value.Placed.mono (hclass c rfl) ((h₁.grows.trans h₂.grows).trans h₃.grows)
        exact hplaced entry.2 (List.mem_flatMap.2 ⟨layer, hlayer, List.mem_map.2 ⟨entry, hentry, rfl⟩⟩)

/-! ### One step -/

theorem places_evaluateStep (heval : EvaluatesLexically evaluate) (hexec : ExecutesLexically execute)
    (e : Expr Distance) (ht : t.Sound) (hhere : t.Traces t.machine.current marks) (h : ExprLies marks e) :
    Places t (evaluateStep evaluate execute e) fun v t' => v.Placed t' := by
  cases e with
  | literal value => exact .pure ht (Value.placed_ofLiteral value)
  | group inner => exact heval.places t marks inner ht hhere h.group
  | unary operator operand =>
    refine .bind (heval.places t marks operand ht hhere h.unary) fun v t₁ h₁ _ => ?_
    exact places_settles h₁.sound (Run.settles_unary operator v)
  | binary left operator right =>
    refine .bind (heval.places t marks left ht hhere h.binary.1) fun l t₁ h₁ _ => ?_
    refine .bind (heval.places t₁ marks right h₁.sound (h₁.traces hhere) h.binary.2) fun r t₂ h₂ _ => ?_
    exact places_settles h₂.sound (Run.settles_binary operator l r)
  | logical left operator right =>
    refine .bind (heval.places t marks left ht hhere h.logical.1) fun l t₁ h₁ hl => ?_
    split
    · exact .pure h₁.sound hl
    · exact heval.places t₁ marks right h₁.sound (h₁.traces hhere) h.logical.2
  | name token site => exact (places_lookUp ht token site).mono fun _ _ _ hv => hv.1
  | setField object field value =>
    refine .bind (heval.places t marks object ht hhere h.setField.1) fun target t₁ h₁ _ => ?_
    cases target with
    | object id c =>
      refine .bind (heval.places t₁ marks value h₁.sound (h₁.traces hhere) h.setField.2) fun v t₂ h₂ hv => ?_
      refine .bind (places_writeField h₂.sound id field.lexeme hv) fun _ t₃ h₃ _ => ?_
      exact .pure h₃.sound (hv.mono h₃.grows)
    | _ => exact places_fail h₁.sound field .noFields
  | getField object field =>
    refine .bind (heval.places t marks object ht hhere h.getField) fun target t₁ h₁ htarget => ?_
    exact places_getField field h₁.sound htarget
  | call callee paren arguments =>
    exact places_evaluateCall heval hexec paren ht hhere h.call.1 h.call.2
  | thisRef keyword site => exact (places_lookUp ht keyword site).mono fun _ _ _ hv => hv.1
  | superRef keyword method site =>
    have hsuper := h.super
    refine .bind (places_machine ht) ?_
    rintro _ t - ⟨rfl, rfl⟩
    have hnoted : Places t (note (.sent (.superRef keyword method site) t.machine)) fun _ _ => True := by
      refine .of_ok rfl (ht.tell (fun _ hid => nomatch hid) ?_) trivial
      rintro _ _ ⟨⟩
      exact hhere.explains hsuper
    refine .bind hnoted fun _ t₁ h₁ _ => ?_
    exact places_getSuper h₁.sound (h₁.traces hhere) hsuper
  | unknown => exact places_throw ht _

theorem places_evaluate? (heval : EvaluatesLexically evaluate) {e : Option (Expr Distance)} (ht : t.Sound)
    (hhere : t.Traces t.machine.current marks) (h : ∀ x ∈ e, ExprLies marks x) :
    Places t (evaluate? evaluate e) fun v t' => v.Placed t' := by
  cases e with
  | none => exact .pure ht trivial
  | some e => exact heval.places t marks e ht hhere (h e rfl)

theorem places_executeStep (limits : Limits) (heval : EvaluatesLexically evaluate)
    (hexec : ExecutesLexically execute) (s : Stmt Distance) (ht : t.Sound)
    (hhere : t.Traces t.machine.current marks) (h : StmtLies marks s) :
    Places t (executeStep limits evaluate execute s) fun flow t' => flow.Placed t' := by
  cases s with
  | block body => exact places_executeBlock hexec body ht hhere h
  | define r =>
    refine .bind (places_newSerial ht) fun serial t₁ h₁ _ => ?_
    refine .bind (places_currentFrame h₁.sound) ?_
    rintro _ t₁ - ⟨rfl, rfl⟩
    refine .bind (places_define h₁.sound h.1 ⟨marks, h₁.traces hhere, h.2⟩) fun _ t₂ h₂ _ => ?_
    exact .pure h₂.sound trivial
  | classDef name parent methods =>
    refine .bind (places_defineClass heval ht hhere h.1 h.2) fun _ t₁ h₁ _ => ?_
    exact .pure h₁.sound trivial
  | evaluate e =>
    refine .bind (heval.places t marks e ht hhere h) fun _ t₁ h₁ _ => ?_
    exact .pure h₁.sound trivial
  | branch condition whenTrue whenFalse =>
    cases whenFalse with
    | none =>
      refine .bind (heval.places t marks condition ht hhere h.1) fun v t₁ h₁ _ => ?_
      split
      · exact hexec t₁ marks whenTrue h₁.sound (h₁.traces hhere) h.2
      · exact .pure h₁.sound trivial
    | some whenFalse =>
      refine .bind (heval.places t marks condition ht hhere h.1) fun v t₁ h₁ _ => ?_
      split
      · exact hexec t₁ marks whenTrue h₁.sound (h₁.traces hhere) h.2.1
      · exact hexec t₁ marks whenFalse h₁.sound (h₁.traces hhere) h.2.2
  | print e =>
    refine .bind (heval.places t marks e ht hhere h) fun v t₁ h₁ _ => ?_
    refine .bind (places_printLine h₁.sound v.display) fun _ t₂ h₂ _ => ?_
    exact .pure h₂.sound trivial
  | giveBack keyword value =>
    refine .bind (places_evaluate? heval ht hhere h) fun v t₁ h₁ hv => ?_
    exact .pure h₁.sound hv
  | assign name value site =>
    refine .bind (places_evaluate? heval ht hhere h.2) fun v t₁ h₁ hv => ?_
    refine .bind (places_assign h₁.sound h.1 hv site) fun _ t₂ h₂ _ => ?_
    exact .pure h₂.sound trivial
  | loop condition body =>
    refine places_repeatWhile (fun t₁ h₁ hhere₁ => ?_) (fun t₁ h₁ hhere₁ => hexec t₁ marks body h₁ hhere₁ h.2)
      limits.repetitions ht hhere
    refine .bind (heval.places t₁ marks condition h₁ hhere₁ h.1) fun v t₂ h₂ _ => ?_
    exact .pure h₂.sound trivial
  | unknown => exact places_throw ht _

end Parts

/-! ## Every depth -/

theorem places_depth (limits : Limits) (depth : Nat) :
    EvaluatesLexically (evaluate limits depth) ∧ ExecutesLexically (execute limits depth) := by
  induction depth with
  | zero =>
    refine ⟨⟨?_, ?_⟩, ?_⟩
    · exact fun _ _ _ ht _ _ => places_throw ht _
    · exact fun _ _ _ ht => places_throw ht _
    · exact fun _ _ _ ht _ _ => places_throw ht _
  | succ depth ih =>
    obtain ⟨heval, hexec⟩ := ih
    refine ⟨⟨?_, ?_⟩, ?_⟩
    · exact fun _ _ e ht hhere h => places_evaluateStep heval hexec e ht hhere h
    · exact fun _ token site ht => places_lookUp ht token site
    · exact fun _ _ s ht hhere h => places_executeStep limits heval hexec s ht hhere h

/-- **Every `super` of a program is explained**, if the program starts at the global frame and its names are
bound so that each `super` leads to the nearest class. -/
theorem places_program (limits : Limits) {t : Told} (ss : List (Stmt Distance)) (ht : t.Sound)
    (hcurrent : t.machine.current = Machine.globalFrame) (h : StmtsLie [] ss) :
    Places t (program limits ss) fun _ _ => True := by
  induction ss generalizing t with
  | nil => exact .pure ht trivial
  | cons s ss ih =>
    have hexec := (places_depth limits limits.nesting).2
    refine .bind (hexec t [] s ht hcurrent h.1) fun _ t₁ h₁ _ => ?_
    exact ih h₁.sound (h₁.current.trans hcurrent) h.2

end Chronicle
end Offside
