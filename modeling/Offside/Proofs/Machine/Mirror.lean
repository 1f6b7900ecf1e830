import Offside.Machine
import Offside.Proofs.Binding.Fits

/-!
# Frames that mirror scopes

While a program runs, the chain of frames from any frame to the global one mirrors the scopes that were open
when names were bound: one frame for each scope, binding every name that the scope has ready.  The store of
frames only grows, so that a mirror stays one.

* `Frames.Mirrors` — the chain of a frame mirrors scopes; `Frames.Grows` — what running does to a store;
* `Frames.bound_of_ready`, `Frames.ancestor?_of_mirrors` — what is found along the chain;
* `Value.Suits` — what `this` and `super` are bound to.
-/

set_option autoImplicit false

namespace Offside

open Binding (Scope Ready enter)

/-! ## Stores of frames -/

namespace Frames

/-- Every frame is still there, enclosed by the same frame, and no name has lost its binding. -/
def Grows (frames frames' : Frames Value) : Prop :=
  ∀ (id : FrameId) (frame : Frame Value), frames[id]? = some frame → ∃ frame', frames'[id]? = some frame' ∧
    frame'.enclosing = frame.enclosing ∧
    ∀ name, (frame.bindings.get? name).isSome → (frame'.bindings.get? name).isSome

theorem Grows.refl (frames : Frames Value) : frames.Grows frames :=
  fun _ frame h => ⟨frame, h, rfl, fun _ hn => hn⟩

theorem Grows.trans {a b c : Frames Value} (hab : a.Grows b) (hbc : b.Grows c) : a.Grows c := by
  intro id frame h
  obtain ⟨frame', h', henc, hnames⟩ := hab id frame h
  obtain ⟨frame'', h'', henc', hnames'⟩ := hbc id frame' h'
  exact ⟨frame'', h'', henc'.trans henc, fun name hn => hnames' name (hnames name hn)⟩

theorem getElem?_add_of_lt {frames : Frames Value} {id : FrameId} (h : id < frames.size)
    (enclosing : Option FrameId) : (frames.add enclosing)[id]? = frames[id]? := by
  rw [add, Array.getElem?_push_lt h, Array.getElem?_eq_getElem h]

theorem getElem?_add_size (frames : Frames Value) (enclosing : Option FrameId) :
    (frames.add enclosing)[frames.size]? = some ⟨[], enclosing⟩ := by
  rw [add, Array.getElem?_push_size]

theorem grows_add (frames : Frames Value) (enclosing : Option FrameId) :
    frames.Grows (frames.add enclosing) := by
  intro id frame h
  obtain ⟨hlt, -⟩ := Array.getElem?_eq_some_iff.1 h
  exact ⟨frame, (getElem?_add_of_lt hlt enclosing).trans h, rfl, fun _ hn => hn⟩

theorem getElem?_define_self {frames : Frames Value} {id : FrameId} {frame : Frame Value}
    (h : frames[id]? = some frame) (name : String) (value : Value) :
    (frames.define id name value)[id]? =
      some { frame with bindings := frame.bindings.put name value } := by
  rw [define, Array.getElem?_modify, if_pos rfl, h]
  rfl

theorem isSome_get?_put {bindings : Bindings Value} (name : String) (value : Value) {other : String}
    (h : (bindings.get? other).isSome) : ((bindings.put name value).get? other).isSome := by
  by_cases he : name = other
  · rw [he, Bindings.get?_put_self]; rfl
  · rw [Bindings.get?_put_of_ne he]; exact h

theorem grows_define (frames : Frames Value) (id : FrameId) (name : String) (value : Value) :
    frames.Grows (frames.define id name value) := by
  intro other frame h
  by_cases he : id = other
  · subst he
    exact ⟨_, getElem?_define_self h name value, rfl, fun _ hn => isSome_get?_put name value hn⟩
  · exact ⟨frame, (define_of_ne frames name value he).trans h, rfl, fun _ hn => hn⟩

/-! ## Mirrors -/

/-- The chain of frames from `id` ends at the global frame, with one frame for each scope; each frame binds
the names that its scope has ready. -/
def Mirrors (frames : Frames Value) : FrameId → List Scope → Prop
  | id, [] => id = Machine.globalFrame
  | id, scope :: outer => ∃ frame link, frames[id]? = some frame ∧ frame.enclosing = some link ∧
      (∀ name, scope.lookup name = some true → (frame.bindings.get? name).isSome) ∧
      Mirrors frames link outer

theorem Mirrors.grow {frames frames' : Frames Value} {id : FrameId} {scopes : List Scope}
    (h : frames.Mirrors id scopes) (hg : frames.Grows frames') : frames'.Mirrors id scopes := by
  induction scopes generalizing id with
  | nil => exact h
  | cons scope outer ih =>
    obtain ⟨frame, link, hframe, henc, hnames, hlink⟩ := h
    obtain ⟨frame', hframe', henc', hkept⟩ := hg id frame hframe
    exact ⟨frame', link, hframe', henc'.trans henc, fun name hn => hkept name (hnames name hn), ih hlink⟩

/-- A name that is pending asks nothing of its frame. -/
theorem Mirrors.pending {frames : Frames Value} {id : FrameId} {scopes : List Scope}
    (h : frames.Mirrors id scopes) (name : String) : frames.Mirrors id (enter name false scopes) := by
  cases scopes with
  | nil => exact h
  | cons scope outer =>
    obtain ⟨frame, link, hframe, henc, hnames, hlink⟩ := h
    refine ⟨frame, link, hframe, henc, fun other ho => hnames other ?_, hlink⟩
    rw [List.lookup_cons] at ho
    cases hb : other == name with
    | true => rw [hb] at ho; cases ho
    | false => rw [hb] at ho; exact ho

/-- A name that is bound in a frame may be entered into its scope. -/
theorem Mirrors.define {frames : Frames Value} {id : FrameId} {scopes : List Scope}
    (h : frames.Mirrors id scopes) (name : String) (value : Value) :
    (frames.define id name value).Mirrors id (enter name true scopes) := by
  have hgrown := h.grow (grows_define frames id name value)
  cases scopes with
  | nil => exact h
  | cons scope outer =>
    obtain ⟨frame, link, hframe, henc, hnames, -⟩ := h
    obtain ⟨_, _, hframe', henc', -, hlink⟩ := hgrown
    rw [getElem?_define_self hframe] at hframe'
    obtain rfl := Option.some.inj hframe'
    refine ⟨_, _, getElem?_define_self hframe name value, henc', fun other ho => ?_, hlink⟩
    rw [List.lookup_cons] at ho
    cases hb : other == name with
    | true => rw [beq_iff_eq.1 hb, Bindings.get?_put_self]; rfl
    | false =>
      rw [hb] at ho
      exact isSome_get?_put name value (hnames other ho)

/-- A frame behind all others mirrors a scope without names inside the scopes of the enclosing frame. -/
theorem Mirrors.add {frames : Frames Value} {id : FrameId} {scopes : List Scope}
    (h : frames.Mirrors id scopes) : (frames.add (some id)).Mirrors frames.size ([] :: scopes) :=
  ⟨_, id, getElem?_add_size frames (some id), rfl, fun _ hn => (nomatch hn), h.grow (grows_add frames _)⟩

/-! ## What is found along a chain -/

theorem ancestor?_of_mirrors {frames : Frames Value} {id : FrameId} {scopes : List Scope}
    (h : frames.Mirrors id scopes) (htop : Machine.globalFrame < frames.size) :
    frames.ancestor? scopes.length id = some Machine.globalFrame := by
  induction scopes generalizing id with
  | nil =>
    obtain rfl : id = Machine.globalFrame := h
    exact if_pos htop
  | cons scope outer ih =>
    obtain ⟨frame, link, hframe, henc, -, hlink⟩ := h
    simp only [List.length_cons, ancestor?, hframe, henc]
    exact ih hlink

/-- The global frame is enclosed by none: the chain is no longer than the scopes. -/
theorem ancestor?_succ_of_mirrors {frames : Frames Value} {id : FrameId} {scopes : List Scope}
    {top : Frame Value} (h : frames.Mirrors id scopes) (htop : frames[Machine.globalFrame]? = some top)
    (hnone : top.enclosing = none) : frames.ancestor? (scopes.length + 1) id = none := by
  induction scopes generalizing id with
  | nil =>
    obtain rfl : id = Machine.globalFrame := h
    simp only [ancestor?, htop, hnone]
  | cons scope outer ih =>
    obtain ⟨frame, link, hframe, henc, -, hlink⟩ := h
    rw [List.length_cons, ancestor?]
    simp only [hframe, henc]
    exact ih hlink

theorem exists_ancestor? {frames : Frames Value} {id : FrameId} {scopes : List Scope} {d : Nat}
    (h : frames.Mirrors id scopes) (htop : Machine.globalFrame < frames.size) (hd : d ≤ scopes.length) :
    ∃ place, frames.ancestor? d id = some place := by
  induction d generalizing id scopes with
  | zero =>
    cases scopes with
    | nil =>
      obtain rfl : id = Machine.globalFrame := h
      exact ⟨_, if_pos htop⟩
    | cons scope outer =>
      obtain ⟨frame, -, hframe, -⟩ := h
      exact ⟨id, if_pos (Array.getElem?_eq_some_iff.1 hframe).1⟩
  | succ d ih =>
    cases scopes with
    | nil => simp at hd
    | cons scope outer =>
      obtain ⟨frame, link, hframe, henc, -, hlink⟩ := h
      obtain ⟨place, hplace⟩ := ih hlink (Nat.le_of_succ_le_succ hd)
      exact ⟨place, by simp only [ancestor?, hframe, henc, hplace]⟩

/-- A name that a scope has ready is bound in the frame that mirrors the scope. -/
theorem bound_of_ready {frames : Frames Value} {id : FrameId} {scopes : List Scope} {d : Nat}
    {name : String} (h : frames.Mirrors id scopes) (hr : Ready scopes d name) :
    ∃ place frame value, frames.ancestor? d id = some place ∧ frames[place]? = some frame ∧
      frame.bindings.get? name = some value := by
  induction d generalizing id scopes with
  | zero =>
    obtain ⟨scope, hscope, hlookup⟩ := hr
    cases scopes with
    | nil => cases hscope
    | cons head outer =>
      obtain rfl := Option.some.inj hscope
      obtain ⟨frame, -, hframe, -, hnames, -⟩ := h
      obtain ⟨value, hvalue⟩ := Option.isSome_iff_exists.1 (hnames name hlookup)
      exact ⟨id, frame, value, if_pos (Array.getElem?_eq_some_iff.1 hframe).1, hframe, hvalue⟩
  | succ d ih =>
    cases scopes with
    | nil =>
      obtain ⟨scope, hscope, -⟩ := hr
      cases hscope
    | cons head outer =>
      obtain ⟨frame, link, hframe, henc, -, hlink⟩ := h
      obtain ⟨place, found, value, hplace, hfound, hvalue⟩ := ih hlink hr
      exact ⟨place, found, value, by simp only [ancestor?, hframe, henc, hplace], hfound, hvalue⟩

theorem getAt_of_bound {frames : Frames Value} {id place : FrameId} {frame : Frame Value} {d : Nat}
    {name : String} {value : Value} (hp : frames.ancestor? d id = some place)
    (hf : frames[place]? = some frame) (hv : frame.bindings.get? name = some value) :
    frames.getAt id d name = .ok value := by
  simp only [getAt, hp, bindingsOf, hf, hv]

end Frames

/-! ## What is bound -/

/-- What may be bound to a name: to `this` an instance, to `super` a class. -/
structure Value.Suits (v : Value) (name : String) : Prop where
  this : name = "this" → ∃ id c, v = .object id c
  super : name = "super" → ∃ c, v = .classValue c

theorem Value.suits_of_bindable {name : String} (h : Bindable name) (v : Value) : v.Suits name :=
  ⟨fun he => absurd he h.1, fun he => absurd he h.2⟩

theorem Value.suits_object (id : InstanceId) (c : Class) : (Value.object id c).Suits "this" :=
  ⟨fun _ => ⟨id, c, rfl⟩, fun he => absurd he (by decide)⟩

end Offside
