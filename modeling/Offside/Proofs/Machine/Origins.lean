import Offside.Proofs.Machine.Chronicle
import Offside.Proofs.Machine.Mirror
import Offside.Proofs.Machine.Rules

/-!
# Where frames come from

The notes of a run say for what each frame was made.  A chain of frames traces marks if the notes tell, frame
by frame, of a call, a bound method or a class declaration as the marks ask for it; so the code of a function
that remembers a frame finds there what the binding of names counted on.  From this follows what a `super`
does, in terms of what was noted before it.

* `Told.Traces` — a chain of frames that was made as marks say;
* `Told.Sound` — everything that a machine holds remembers such frames, and every `super` is explained;
* `Dispatch`, `Dispatch.Explains` — what a `super` comes to, and from where;
* `Told.Traces.explains` — a `super` that leads to the nearest class is explained by the notes.
-/

set_option autoImplicit false

namespace Offside

open Binding (Distance Mark Declaration Reaches RoutineLies SuperAt routineSupers)

/-! ## What a `super` comes to -/

/-- The first class of the chain that has a method of the name has this one. -/
def Class.Provides (c : Class) (name : String) (f : Closure) : Prop :=
  ∃ nearer layer farther, c.lineage = nearer ++ layer :: farther ∧
    (∀ l ∈ nearer, l.methods.get? name = none) ∧ layer.methods.get? name = some f

/-- No class of the chain has a method of the name. -/
def Class.Lacks (c : Class) (name : String) : Prop :=
  ∀ layer ∈ c.lineage, layer.methods.get? name = none

theorem Class.findMethod?_of_provides {c : Class} {name : String} {f : Closure} (h : c.Provides name f) :
    c.findMethod? name = some f := by
  obtain ⟨nearer, layer, farther, hlineage, hnearer, hlayer⟩ := h
  rw [findMethod?, List.findSome?_eq_some_iff]
  exact ⟨nearer, layer, farther, hlineage, hlayer, hnearer⟩

theorem Class.findMethod?_eq_none_iff {c : Class} {name : String} :
    c.findMethod? name = none ↔ c.Lacks name := by
  rw [findMethod?, List.findSome?_eq_none_iff]
  rfl

/-- What a `super` comes from: an execution of a class declaration, with the superclass; a method of this class
that was bound to an instance; and a call of it. -/
structure Dispatch where
  declaration : Declaration
  /-- The machine on which the declaration was executed. -/
  start : Machine
  parent : Class
  superFrame : FrameId
  method : Closure
  id : InstanceId
  /-- The class of the instance. -/
  own : Class
  thisFrame : FrameId
  call : Closure
  callFrame : FrameId

namespace Dispatch

/-- The instance. -/
def this (d : Dispatch) : Value :=
  .object d.id d.own

/-- The notes tell of the three, and the frames that were made for them stand one inside the other, with the
frame of the call `n` links up. -/
structure Stands (d : Dispatch) (notes : List Note) (m : Machine) (n : Nat) : Prop where
  declared : .declared d.declaration d.start d.superFrame ∈ notes
  /-- The superclass is what its variable held when the declaration was executed. -/
  held : Run.lookUp d.declaration.parent.1 d.declaration.parent.2 d.start = .ok (.classValue d.parent) d.start
  bound : .bound d.method d.this d.thisFrame ∈ notes
  /-- The method was made by this execution of the declaration. -/
  closed : d.method.frame = d.superFrame
  called : .called d.call d.callFrame ∈ notes
  /-- The call is one of the bound method. -/
  invoked : d.call.routine = d.method.routine ∧ d.call.frame = d.thisFrame
  callFrame : m.frames.ancestor? n m.current = some d.callFrame
  thisFrame : m.frames.ancestor? (n + 1) m.current = some d.thisFrame
  superFrame : m.frames.ancestor? (n + 2) m.current = some d.superFrame
  this : m.frames.getAt m.current (n + 1) "this" = .ok d.this
  super : m.frames.getAt m.current (n + 2) "super" = .ok (.classValue d.parent)

/-- What the notes before the evaluation of a `super` tell about it, and what it comes to. -/
structure Explains (d : Dispatch) (before : List Note) (e : Expr Distance) (m : Machine) : Prop where
  /-- The `super` is one of a method of the class, and of no class inside. -/
  inside : e ∈ routineSupers d.method.routine ∧ d.method.routine ∈ d.declaration.methods
  /-- It is evaluated in the call, or in blocks and calls of functions that were made inside it. -/
  stands : ∃ n, d.Stands before m n
  /-- It comes to the method of the first class that has one, bound to the instance.  It fails exactly if there
  is none. -/
  outcome : ∃ keyword name site, e = .superRef keyword name site ∧ ∀ limits depth,
    (∀ f, d.parent.Provides name.lexeme f →
      Run.evaluate limits (depth + 1) e m = (Value.function <$> Run.bindMethod f d.this) m) ∧
    (Run.evaluate limits (depth + 1) e m =
      .error (.error (some name.line) (.undefinedProperty name.lexeme)) m ↔ d.parent.Lacks name.lexeme)

end Dispatch

/-! ## Frames of which the notes tell -/

/-- The frame for which a note was taken. -/
def Note.frame? : Note → Option FrameId
  | declared _ _ frame => some frame
  | bound _ _ frame => some frame
  | called _ frame => some frame
  | sent _ _ => none

/-- Whether a note tells of a `super`. -/
def Note.isSent : Note → Bool
  | sent _ _ => true
  | declared _ _ _ | bound _ _ _ | called _ _ => false

/-- The notes tell of the frame `id` inside `outer`, with its bindings, what the mark says. -/
def Binding.Mark.Noted (notes : List Note) (id outer : FrameId) (bindings : Bindings Value) : Mark → Prop
  | .block => True
  | .call r => ∃ f, .called f id ∈ notes ∧ f.routine = r ∧ f.frame = outer
  | .this r => ∃ f i c, .bound f (.object i c) id ∈ notes ∧ f.routine = r ∧ f.frame = outer ∧
      bindings.get? "this" = some (.object i c)
  | .super d => ∃ start c, .declared d start id ∈ notes ∧
      Run.lookUp d.parent.1 d.parent.2 start = .ok (.classValue c) start ∧
      bindings.get? "super" = some (.classValue c)

/-- The chain of frames from `id` ends at the global frame, with one frame for each mark, of which the notes
tell what the mark says. -/
def Told.Traces (t : Told) : FrameId → List Mark → Prop
  | id, [] => id = Machine.globalFrame
  | id, mark :: marks => ∃ frame outer, t.machine.frames[id]? = some frame ∧ frame.enclosing = some outer ∧
      mark.Noted t.notes id outer frame.bindings ∧ Traces t outer marks

/-- A function that remembers frames as its code asks for them, inside more scopes. -/
def Closure.Placed (t : Told) (more : List Mark) (f : Closure) : Prop :=
  ∃ marks, t.Traces f.frame marks ∧ RoutineLies (more ++ marks) f.routine

/-- The same of the functions that a value consists of; the methods of a class are still to be bound. -/
def Value.Placed (t : Told) : Value → Prop
  | .function f => f.Placed t []
  | .classValue c | .object _ c => ∀ f ∈ c.closures, f.Placed t [.this f.routine]
  | _ => True

/-- The same of what a statement gives back. -/
def Flow.Placed (t : Told) : Flow → Prop
  | .next => True
  | .back value => value.Placed t

/-- Whatever the machine holds remembers frames as its code asks for them.  Every `super` is explained by what
was noted before it, and no frame was noted twice. -/
structure Told.Sound (t : Told) : Prop where
  bindings : ∀ (id : FrameId) (frame : Frame Value), t.machine.frames[id]? = some frame →
    ∀ entry ∈ frame.bindings, entry.2.Placed t
  fields : ∀ (id : InstanceId) (bindings : Bindings Value), t.machine.fields[id]? = some bindings →
    ∀ entry ∈ bindings, entry.2.Placed t
  sent : ∀ before e m, before ++ [.sent e m] <+: t.notes → ∃ d : Dispatch, d.Explains before e m
  order : (t.notes.filterMap Note.frame?).Pairwise (· < ·)
  made : ∀ id ∈ t.notes.filterMap Note.frame?, id < t.machine.frames.size

/-! ## What lasts -/

namespace Frames

/-- Every frame is still there, enclosed by the same frame, and `this` and `super` are bound as they were. -/
def Steady (frames frames' : Frames Value) : Prop :=
  ∀ (id : FrameId) (frame : Frame Value), frames[id]? = some frame → ∃ frame', frames'[id]? = some frame' ∧
    frame'.enclosing = frame.enclosing ∧
    ∀ name v, ¬ Bindable name → frame.bindings.get? name = some v → frame'.bindings.get? name = some v

theorem Steady.refl (frames : Frames Value) : frames.Steady frames :=
  fun _ frame h => ⟨frame, h, rfl, fun _ _ _ hv => hv⟩

theorem Steady.trans {a b c : Frames Value} (hab : a.Steady b) (hbc : b.Steady c) : a.Steady c := by
  intro id frame h
  obtain ⟨frame', h', henc, hkept⟩ := hab id frame h
  obtain ⟨frame'', h'', henc', hkept'⟩ := hbc id frame' h'
  exact ⟨frame'', h'', henc'.trans henc, fun name v hn hv => hkept' name v hn (hkept name v hn hv)⟩

theorem steady_add (frames : Frames Value) (enclosing : Option FrameId) :
    frames.Steady (frames.add enclosing) := by
  intro id frame h
  obtain ⟨hlt, -⟩ := Array.getElem?_eq_some_iff.1 h
  exact ⟨frame, (getElem?_add_of_lt hlt enclosing).trans h, rfl, fun _ _ _ hv => hv⟩

/-- A new frame binds nothing. -/
theorem get?_add_size (frames : Frames Value) (enclosing : Option FrameId) (name : String) :
    ((frames.add enclosing).bindingsOf frames.size).get? name = none := by
  rw [bindingsOf, getElem?_add_size]
  rfl

/-- A name may be bound that is none of the two, or that is new to the frame. -/
theorem steady_define {frames : Frames Value} {id : FrameId} {name : String} (value : Value)
    (h : Bindable name ∨ (frames.bindingsOf id).get? name = none) :
    frames.Steady (frames.define id name value) := by
  intro other frame hframe
  by_cases hid : id = other
  · subst hid
    refine ⟨_, getElem?_define_self hframe name value, rfl, fun bound v hbound hv => ?_⟩
    have hne : name ≠ bound := by
      rintro rfl
      rw [bindingsOf, hframe] at h
      rcases h with h | h
      · exact hbound h
      · cases h.symm.trans hv
    rw [Bindings.get?_put_of_ne hne]
    exact hv
  · exact ⟨frame, (define_of_ne frames name value hid).trans hframe, rfl, fun _ _ _ hv => hv⟩

theorem Steady.lt {frames frames' : Frames Value} (h : frames.Steady frames') {id : FrameId}
    (hid : id < frames.size) : id < frames'.size := by
  obtain ⟨frame', hframe', -⟩ := h id _ (Array.getElem?_eq_getElem hid)
  exact (Array.getElem?_eq_some_iff.1 hframe').1

theorem ancestor?_zero {frames : Frames Value} {id : FrameId} {frame : Frame Value}
    (hframe : frames[id]? = some frame) : frames.ancestor? 0 id = some id :=
  if_pos (Array.getElem?_eq_some_iff.1 hframe).1

theorem ancestor?_succ {frames : Frames Value} {id outer : FrameId} {frame : Frame Value}
    (hframe : frames[id]? = some frame) (henc : frame.enclosing = some outer) (n : Nat) :
    frames.ancestor? (n + 1) id = frames.ancestor? n outer := by
  rw [Frames.ancestor?, hframe]
  simp only [henc]

end Frames

/-- No note is forgotten, and the frames last. -/
structure Told.Grows (t t' : Told) : Prop where
  notes : t.notes <+: t'.notes
  frames : t.machine.frames.Steady t'.machine.frames

section Growing

variable {t t' t'' : Told}

theorem Told.Grows.refl (t : Told) : t.Grows t :=
  ⟨List.prefix_refl _, .refl _⟩

theorem Told.Grows.trans (h : t.Grows t') (h' : t'.Grows t'') : t.Grows t'' :=
  ⟨h.notes.trans h'.notes, h.frames.trans h'.frames⟩

theorem Binding.Mark.Noted.mono {notes notes' : List Note} {id outer : FrameId} {bindings bindings' : Bindings Value}
    {mark : Mark} (h : mark.Noted notes id outer bindings) (hnotes : notes ⊆ notes')
    (hkept : ∀ name v, ¬ Bindable name → bindings.get? name = some v → bindings'.get? name = some v) :
    mark.Noted notes' id outer bindings' := by
  cases mark with
  | block => trivial
  | call r =>
    obtain ⟨f, hf, hr⟩ := h
    exact ⟨f, hnotes hf, hr⟩
  | this r =>
    obtain ⟨f, i, c, hf, hr, houter, hthis⟩ := h
    exact ⟨f, i, c, hnotes hf, hr, houter, hkept _ _ (fun hb => hb.1 rfl) hthis⟩
  | super d =>
    obtain ⟨start, c, hd, hstart, hsuper⟩ := h
    exact ⟨start, c, hnotes hd, hstart, hkept _ _ (fun hb => hb.2 rfl) hsuper⟩

theorem Told.Traces.mono {id : FrameId} {marks : List Mark} (h : t.Traces id marks) (hg : t.Grows t') :
    t'.Traces id marks := by
  induction marks generalizing id with
  | nil => exact h
  | cons mark marks ih =>
    obtain ⟨frame, outer, hframe, henc, hnoted, houter⟩ := h
    obtain ⟨frame', hframe', henc', hkept⟩ := hg.frames id frame hframe
    exact ⟨frame', outer, hframe', henc'.trans henc, hnoted.mono hg.notes.subset hkept, ih houter⟩

theorem Closure.Placed.mono {more : List Mark} {f : Closure} (h : f.Placed t more) (hg : t.Grows t') :
    f.Placed t' more := by
  obtain ⟨marks, htraces, hlies⟩ := h
  exact ⟨marks, htraces.mono hg, hlies⟩

theorem Value.Placed.mono {v : Value} (h : v.Placed t) (hg : t.Grows t') : v.Placed t' := by
  cases v with
  | function f => exact Closure.Placed.mono h hg
  | classValue c => exact fun f hf => (h f hf).mono hg
  | object id c => exact fun f hf => (h f hf).mono hg
  | _ => trivial

theorem Value.placed_plain {v : Value} (hc : v.closures = []) : v.Placed t := by
  cases v with
  | function f => cases hc
  | classValue c => exact fun f hf => absurd (hc ▸ hf : f ∈ []) List.not_mem_nil
  | object id c => exact fun f hf => absurd (hc ▸ hf : f ∈ []) List.not_mem_nil
  | _ => trivial

theorem Value.placed_ofLiteral (literal : Literal) : (Value.ofLiteral literal).Placed t := by
  cases literal <;> trivial

theorem Value.Placed.method {c : Class} (h : (Value.classValue c).Placed t) {name : String} {f : Closure}
    (hf : c.findMethod? name = some f) : f.Placed t [.this f.routine] :=
  h f (Class.mem_closures_of_findMethod? hf)

end Growing

/-! ## A `super` is explained -/

namespace Told

variable {t : Told} {id : FrameId}

/-- The frame behind some marks of a chain. -/
theorem Traces.drop {inner outer : List Mark} (h : t.Traces id (inner ++ outer)) :
    ∃ place, t.Traces place outer ∧
      ∀ n, t.machine.frames.ancestor? (inner.length + n) id = t.machine.frames.ancestor? n place := by
  induction inner generalizing id with
  | nil => exact ⟨id, h, fun n => by rw [List.length_nil, Nat.zero_add]⟩
  | cons mark inner ih =>
    obtain ⟨frame, link, hframe, henc, -, hlink⟩ := h
    obtain ⟨place, htraces, hplace⟩ := ih hlink
    refine ⟨place, htraces, fun n => ?_⟩
    rw [List.length_cons, Nat.add_right_comm, Frames.ancestor?, hframe]
    simp only [henc]
    exact hplace n

/-- `super` reads the superclass and the instance, and looks for the method. -/
theorem evaluate_superRef {m : Machine} {n : Nat} {parent : Class} {this : Value} (keyword name : Token)
    (hsuper : m.frames.getAt m.current (n + 2) "super" = .ok (.classValue parent))
    (hthis : m.frames.getAt m.current (n + 1) "this" = .ok this) (limits : Limits) (depth : Nat) :
    Run.evaluate limits (depth + 1) (.superRef keyword name (some (n + 2))) m =
      match parent.findMethod? name.lexeme with
      | some f => (Value.function <$> Run.bindMethod f this) m
      | none => .error (.error (some name.line) (.undefinedProperty name.lexeme)) m := by
  have hparent : Run.readAt m.current (n + 2) "super" m = .ok (.classValue parent) m := by
    simp only [Run.readAt, hsuper]
  have hinstance : Run.readAt m.current (n + 2 - 1) "this" m = .ok this m := by
    simp only [Run.readAt, Nat.add_one_sub_one, hthis]
  show Run.getSuper name (some (n + 2)) m = _
  have hhere : Run.currentFrame m = .ok m.current m := rfl
  rw [Run.getSuper, Step.bind_of_ok hhere, Step.bind_of_ok hparent, Step.bind_of_ok hinstance]
  cases hfind : parent.findMethod? name.lexeme <;> simp only [hfind] <;> rfl

/-- If the marks lead to the nearest class, so do the frames, and the notes tell how these were made. -/
theorem Traces.stands {marks inner : List Mark} {r : Routine Distance} {declaration : Declaration}
    (h : t.Traces t.machine.current marks) (hreaches : Reaches marks inner r declaration) :
    ∃ d : Dispatch, d.Stands t.notes t.machine inner.length ∧ d.declaration = declaration ∧
      d.method.routine = r := by
  obtain ⟨outer, rfl⟩ := hreaches.marks
  obtain ⟨callFrame, hcall, hdrop⟩ := h.drop
  obtain ⟨frame, thisFrame, hframe, henc, ⟨call, hcalled, hroutine, hcallFrame⟩, hthis⟩ := hcall
  obtain ⟨frame', superFrame, hframe', henc', ⟨method, i, own, hbound, rfl, hmethodFrame, hobject⟩, hsuper⟩ := hthis
  obtain ⟨frame'', _, hframe'', -, ⟨start, parent, hdeclared, hheld, hclass⟩, -⟩ := hsuper
  have hplace : t.machine.frames.ancestor? inner.length t.machine.current = some callFrame :=
    (hdrop 0).trans (Frames.ancestor?_zero hframe)
  have hplace' : t.machine.frames.ancestor? (inner.length + 1) t.machine.current = some thisFrame := by
    rw [hdrop 1, Frames.ancestor?_succ hframe henc, Frames.ancestor?_zero hframe']
  have hplace'' : t.machine.frames.ancestor? (inner.length + 2) t.machine.current = some superFrame := by
    rw [hdrop 2, Frames.ancestor?_succ hframe henc, Frames.ancestor?_succ hframe' henc',
      Frames.ancestor?_zero hframe'']
  exact ⟨⟨declaration, start, parent, superFrame, method, i, own, thisFrame, call, callFrame⟩,
    ⟨hdeclared, hheld, hbound, hmethodFrame, hcalled, ⟨hroutine, hcallFrame⟩, hplace, hplace', hplace'',
      Frames.getAt_of_bound hplace' hframe' hobject, Frames.getAt_of_bound hplace'' hframe'' hclass⟩, rfl, rfl⟩

/-- **A `super` is explained** by the notes if it leads to the nearest class. -/
theorem Traces.explains {marks : List Mark} {e : Expr Distance} (h : t.Traces t.machine.current marks)
    (he : SuperAt marks e) : ∃ d : Dispatch, d.Explains t.notes e t.machine := by
  obtain ⟨inner, r, declaration, hreaches, hinside, keyword, name, rfl⟩ := he
  obtain ⟨d, hstands, rfl, rfl⟩ := h.stands hreaches
  have hrun := evaluate_superRef keyword name hstands.super hstands.this
  refine ⟨d, ⟨hinside, hreaches.method⟩, ⟨_, hstands⟩, keyword, name, _, rfl, fun limits depth => ⟨?_, ?_⟩⟩
  · intro f hf
    rw [hrun, Class.findMethod?_of_provides hf]
  · rw [hrun, ← Class.findMethod?_eq_none_iff]
    cases d.parent.findMethod? name.lexeme with
    | none => exact iff_of_true rfl rfl
    | some f => exact iff_of_false nofun nofun

end Told
end Offside
