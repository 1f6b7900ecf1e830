import Offside.Proofs.Machine.Mirror
import Offside.Proofs.Machine.Tour

/-!
# Tours that are sound

Functions and classes, wherever they are kept, remember a frame whose chain mirrors the scopes around their code;
and the account says along which path this code was visited.  A tour is sound if this holds of all that the machine
holds, and if the machine agreed with its visit at every node that was come to.

* `Value.Fits` — values whose code fits the frames that it remembers;
* `Toured.Sound` — sound tours, with one lemma for each change of the machine;
* `Toured.Sound.getAt` — what a scope has ready is found.
-/

set_option autoImplicit false

namespace Offside

open Binding (Visit Path Scope Ready)

/-! ## Values that fit -/

section Values

variable (V : List Visit) (t : Toured)

/-- The code of a function, which was visited along its path, fits the scopes that the chain of its frame mirrors; an
initializer finds its instance in that frame. -/
def Closure.Fits (f : Closure) : Prop :=
  ∃ path scopes, t.origins.lookup f.serial = some path ∧ t.machine.frames.Mirrors f.frame scopes ∧
    Binding.RoutineFits V path scopes f.routine ∧ (f.isInitializer = true → Ready scopes 0 "this")

/-- The code of a method fits once its instance is bound in a frame inside its own. -/
def Closure.FitsMethod (f : Closure) : Prop :=
  ∃ path scopes, t.origins.lookup f.serial = some path ∧ t.machine.frames.Mirrors f.frame scopes ∧
    Binding.RoutineFits V path ([("this", true)] :: scopes) f.routine

/-- Every method of a class and of its ancestors fits. -/
def Class.Fits (c : Class) : Prop :=
  ∀ layer ∈ c.lineage, ∀ name f, layer.methods.get? name = some f → f.FitsMethod V t

/-- The code that a value carries fits; numbers are doubles, and the only native is the clock. -/
def Value.Fits : Value → Prop
  | .function f => f.Fits V t
  | .classValue c => c.Fits V t
  | .object _ c => c.Fits V t
  | .native _ f => f = .clock
  | .number n => ∃ x, n = .double x
  | .null | .boolean _ | .text _ | .foreign _ => True

end Values

/-- Frames have only grown, and every function is made from the routine from which it was made. -/
structure Toured.Grows (t t' : Toured) : Prop where
  frames : t.machine.frames.Grows t'.machine.frames
  origins : ∀ serial path, t.origins.lookup serial = some path → t'.origins.lookup serial = some path

theorem Toured.Grows.refl (t : Toured) : t.Grows t :=
  ⟨.refl _, fun _ _ h => h⟩

theorem Toured.Grows.trans {t t' t'' : Toured} (h : t.Grows t') (h' : t'.Grows t'') : t.Grows t'' :=
  ⟨h.frames.trans h'.frames, fun serial path ho => h'.origins serial path (h.origins serial path ho)⟩

/-- The store of frames alone has grown. -/
theorem Toured.grows_of_frames {t : Toured} {m : Machine} (h : t.machine.frames.Grows m.frames) :
    t.Grows { t with machine := m } :=
  ⟨h, fun _ _ ho => ho⟩

section Growing

variable {V : List Visit} {t t' : Toured}

theorem Closure.Fits.grow {f : Closure} (h : f.Fits V t) (hg : t.Grows t') : f.Fits V t' := by
  obtain ⟨path, scopes, horigin, hm, hr, hi⟩ := h
  exact ⟨path, scopes, hg.origins _ _ horigin, hm.grow hg.frames, hr, hi⟩

theorem Closure.FitsMethod.grow {f : Closure} (h : f.FitsMethod V t) (hg : t.Grows t') : f.FitsMethod V t' := by
  obtain ⟨path, scopes, horigin, hm, hr⟩ := h
  exact ⟨path, scopes, hg.origins _ _ horigin, hm.grow hg.frames, hr⟩

theorem Class.Fits.grow {c : Class} (h : c.Fits V t) (hg : t.Grows t') : c.Fits V t' :=
  fun layer hl name f hf => (h layer hl name f hf).grow hg

theorem Value.Fits.grow {v : Value} (h : v.Fits V t) (hg : t.Grows t') : v.Fits V t' := by
  cases v with
  | function f => exact Closure.Fits.grow h hg
  | classValue c => exact Class.Fits.grow h hg
  | object id c => exact Class.Fits.grow h hg
  | _ => exact h

theorem Class.Fits.findMethod? {c : Class} (h : c.Fits V t) {name : String} {f : Closure}
    (hf : c.findMethod? name = some f) : f.FitsMethod V t := by
  obtain ⟨layer, hlayer, hget⟩ := List.exists_of_findSome?_eq_some hf
  exact h layer hlayer name f hget

theorem Value.fits_ofLiteral (V : List Visit) (t : Toured) (literal : Literal) :
    (Value.ofLiteral literal).Fits V t := by
  cases literal with
  | number x => exact ⟨x, rfl⟩
  | _ => trivial

end Growing

/-! ## Sound tours -/

namespace Toured

/-- The global frame is there and enclosed by none; whatever is bound in a frame or a field fits; paths are recorded
for serial numbers that were given; and at every node the machine agreed with the visit. -/
structure Sound (V : List Visit) (t : Toured) : Prop where
  top : ∃ frame, t.machine.frames[Machine.globalFrame]? = some frame ∧ frame.enclosing = none
  bound : ∀ (id : FrameId) (frame : Frame Value) (name : String) (v : Value),
    t.machine.frames[id]? = some frame → frame.bindings.get? name = some v → v.Fits V t ∧ v.Suits name
  fields : ∀ (id : InstanceId) (bindings : Bindings Value) (name : String) (v : Value),
    t.machine.fields[id]? = some bindings → bindings.get? name = some v → v.Fits V t
  recorded : ∀ serial path, t.origins.lookup serial = some path → serial < t.machine.nextSerial
  agreed : ∀ x ∈ t.arrivals, x.machine.AgreesAt V x.path x.node

variable {V : List Visit} {t : Toured}

theorem Sound.top_lt (h : t.Sound V) : Machine.globalFrame < t.machine.frames.size := by
  obtain ⟨frame, hframe, -⟩ := h.top
  exact (Array.getElem?_eq_some_iff.1 hframe).1

/-- The machine changes, and holds nothing that does not fit. -/
theorem Sound.change (h : t.Sound V) {m : Machine} (hframes : t.machine.frames.Grows m.frames)
    (hserial : m.nextSerial = t.machine.nextSerial)
    (hbound : ∀ (id : FrameId) (frame : Frame Value) (name : String) (v : Value),
      m.frames[id]? = some frame → frame.bindings.get? name = some v →
        (∃ old, t.machine.frames[id]? = some old ∧ old.bindings.get? name = some v) ∨
          v.Fits V { t with machine := m } ∧ v.Suits name)
    (hfields : ∀ (id : InstanceId) (bindings : Bindings Value) (name : String) (v : Value),
      m.fields[id]? = some bindings → bindings.get? name = some v →
        (∃ old, t.machine.fields[id]? = some old ∧ old.get? name = some v) ∨ v.Fits V { t with machine := m }) :
    Sound V { t with machine := m } where
  top := by
    obtain ⟨frame, hframe, hnone⟩ := h.top
    obtain ⟨frame', hframe', henc, -⟩ := hframes _ frame hframe
    exact ⟨frame', hframe', henc.trans hnone⟩
  bound := by
    intro id frame name v hframe hv
    rcases hbound id frame name v hframe hv with ⟨old, hold, hget⟩ | hnew
    · obtain ⟨hfits, hsuits⟩ := h.bound id old name v hold hget
      exact ⟨hfits.grow (grows_of_frames hframes), hsuits⟩
    · exact hnew
  fields := by
    intro id bindings name v hb hv
    rcases hfields id bindings name v hb hv with ⟨old, hold, hget⟩ | hnew
    · exact (h.fields id old name v hold hget).grow (grows_of_frames hframes)
    · exact hnew
  recorded serial path ho := hserial ▸ h.recorded serial path ho
  agreed := h.agreed

/-- Only the heap matters. -/
theorem Sound.of_eq (h : t.Sound V) {m : Machine} (hframes : m.frames = t.machine.frames)
    (hfields : m.fields = t.machine.fields) (hserial : m.nextSerial = t.machine.nextSerial) :
    Sound V { t with machine := m } := by
  refine h.change (hframes ▸ .refl _) hserial ?_ ?_
  · intro id frame name v hframe hv
    exact .inl ⟨frame, hframes ▸ hframe, hv⟩
  · intro id bindings name v hb hv
    exact .inl ⟨bindings, hfields ▸ hb, hv⟩

theorem Sound.add (h : t.Sound V) (enclosing : Option FrameId) :
    Sound V { t with machine := { t.machine with frames := t.machine.frames.add enclosing } } := by
  refine h.change (Frames.grows_add _ _) rfl ?_ fun id bindings name v hb hv => .inl ⟨bindings, hb, hv⟩
  intro id frame name v hframe hv
  by_cases hid : id < t.machine.frames.size
  · exact .inl ⟨frame, (Frames.getElem?_add_of_lt hid enclosing).symm.trans hframe, hv⟩
  · have hlt := (Array.getElem?_eq_some_iff.1 hframe).1
    rw [Frames.size_add] at hlt
    obtain rfl : id = t.machine.frames.size :=
      Nat.le_antisymm (Nat.lt_succ_iff.1 hlt) (Nat.le_of_not_lt hid)
    rw [Frames.getElem?_add_size] at hframe
    obtain rfl := Option.some.inj hframe
    cases hv

/-- Binding a name keeps a tour sound if the value fits once the name is bound. -/
theorem Sound.define (h : t.Sound V) {id : FrameId} {name : String} {value : Value}
    (hv : value.Fits V
      { t with machine := { t.machine with frames := t.machine.frames.define id name value } })
    (hn : value.Suits name) :
    Sound V { t with machine := { t.machine with frames := t.machine.frames.define id name value } } := by
  refine h.change (Frames.grows_define _ _ _ _) rfl ?_ fun id bindings name v hb hv => .inl ⟨bindings, hb, hv⟩
  intro other frame name' v hframe hget
  by_cases hid : id = other
  · subst hid
    cases hold : t.machine.frames[id]? with
    | none =>
      rw [Frames.define, Array.getElem?_modify, if_pos rfl, hold] at hframe
      cases hframe
    | some old =>
      rw [Frames.getElem?_define_self hold] at hframe
      obtain rfl := Option.some.inj hframe
      by_cases hname : name = name'
      · subst hname
        rw [Bindings.get?_put_self] at hget
        obtain rfl := Option.some.inj hget
        exact .inr ⟨hv, hn⟩
      · rw [Bindings.get?_put_of_ne hname] at hget
        exact .inl ⟨old, rfl, hget⟩
  · rw [Frames.define_of_ne _ _ _ hid] at hframe
    exact .inl ⟨frame, hframe, hget⟩

theorem Sound.newInstance (h : t.Sound V) :
    Sound V { t with machine := { t.machine with fields := t.machine.fields.push [] } } := by
  refine h.change (.refl _) rfl (fun id frame name v hframe hv => .inl ⟨frame, hframe, hv⟩) ?_
  intro id bindings name v hb hv
  rw [Array.getElem?_push] at hb
  split at hb
  · obtain rfl := Option.some.inj hb
    cases hv
  · exact .inl ⟨bindings, hb, hv⟩

theorem Sound.setField (h : t.Sound V) (id : InstanceId) {name : String} {value : Value} (hv : value.Fits V t) :
    Sound V { t with machine := { t.machine with
      fields := t.machine.fields.modify id fun bindings => bindings.put name value } } := by
  refine h.change (.refl _) rfl (fun id frame name v hframe hv => .inl ⟨frame, hframe, hv⟩) ?_
  intro other bindings name' v hb hget
  rw [Array.getElem?_modify] at hb
  split at hb
  · obtain ⟨old, hold, rfl⟩ := Option.map_eq_some_iff.1 hb
    by_cases hname : name = name'
    · subst hname
      rw [Bindings.get?_put_self] at hget
      obtain rfl := Option.some.inj hget
      exact .inr (hv.grow (grows_of_frames (.refl _)))
    · rw [Bindings.get?_put_of_ne hname] at hget
      exact .inl ⟨old, hold, hget⟩
  · exact .inl ⟨bindings, hb, hget⟩

/-- Something else than a function is made. -/
theorem Sound.newSerial (h : t.Sound V) :
    Sound V { t with machine := { t.machine with nextSerial := t.machine.nextSerial + 1 } } where
  top := h.top
  bound id frame name v hframe hv := by
    obtain ⟨hfits, hsuits⟩ := h.bound id frame name v hframe hv
    exact ⟨hfits.grow (grows_of_frames (.refl _)), hsuits⟩
  fields id bindings name v hb hv := (h.fields id bindings name v hb hv).grow (grows_of_frames (.refl _))
  recorded serial path ho := Nat.lt_succ_of_lt (h.recorded serial path ho)
  agreed := h.agreed

/-- The account of a tour when a function is made. -/
def makeFunction (t : Toured) (path : Path) : Toured where
  machine := { t.machine with nextSerial := t.machine.nextSerial + 1 }
  origins := (t.machine.nextSerial, path) :: t.origins
  arrivals := t.arrivals

/-- A serial number that was not given before has no path yet. -/
theorem Sound.grows_makeFunction (h : t.Sound V) (path : Path) : t.Grows (t.makeFunction path) := by
  refine ⟨.refl _, fun serial other ho => ?_⟩
  have hne : (serial == t.machine.nextSerial) = false :=
    beq_eq_false_iff_ne.2 (Nat.ne_of_lt (h.recorded serial other ho))
  simp only [makeFunction, List.lookup_cons, hne]
  exact ho

theorem Sound.makeFunction (h : t.Sound V) (path : Path) : (t.makeFunction path).Sound V where
  top := h.top
  bound id frame name v hframe hv := by
    obtain ⟨hfits, hsuits⟩ := h.bound id frame name v hframe hv
    exact ⟨hfits.grow (h.grows_makeFunction path), hsuits⟩
  fields id bindings name v hb hv := (h.fields id bindings name v hb hv).grow (h.grows_makeFunction path)
  recorded serial other ho := by
    by_cases hserial : serial = t.machine.nextSerial
    · exact hserial ▸ Nat.lt_succ_self _
    · simp only [Toured.makeFunction, List.lookup_cons, beq_eq_false_iff_ne.2 hserial] at ho
      exact Nat.lt_succ_of_lt (h.recorded serial other ho)
  agreed := h.agreed

/-- A node is come to at which the machine agrees with the visit. -/
theorem Sound.arrive (h : t.Sound V) {path : Path} {node : Binding.Node} (hagrees : t.machine.AgreesAt V path node) :
    Sound V { t with arrivals := t.arrivals ++ [⟨path, node, t.machine⟩] } where
  top := h.top
  bound := h.bound
  fields := h.fields
  recorded := h.recorded
  agreed := List.forall_mem_append.2 ⟨h.agreed, List.forall_mem_singleton.2 hagrees⟩

/-- The account of what was come to is closed, and a new one is begun. -/
theorem Sound.restart (h : t.Sound V) : Sound V { t with arrivals := [] } :=
  ⟨h.top, h.bound, h.fields, h.recorded, nofun⟩

/-- A name that a scope has ready is read at its distance, and its value fits. -/
theorem Sound.getAt (h : t.Sound V) {id : FrameId} {scopes : List Scope} {d : Nat} {name : String}
    (hm : t.machine.frames.Mirrors id scopes) (hr : Ready scopes d name) :
    ∃ v, t.machine.frames.getAt id d name = .ok v ∧ v.Fits V t ∧ v.Suits name := by
  obtain ⟨place, frame, v, hplace, hframe, hv⟩ := Frames.bound_of_ready hm hr
  exact ⟨v, Frames.getAt_of_bound hplace hframe hv, h.bound place frame name v hframe hv⟩

/-- The tour on which no program has run yet. -/
def fresh (time : Float) : Toured :=
  ⟨Machine.fresh time, [], []⟩

/-- It is sound, whatever is visited later. -/
theorem sound_fresh (V : List Visit) (time : Float) : (fresh time).Sound V := by
  have hempty : Sound V ⟨⟨#[⟨[], none⟩], #[], 0, Machine.globalFrame, "", time⟩, [], []⟩ := by
    refine ⟨⟨_, rfl, rfl⟩, fun id frame name v hframe hv => ?_, fun id bindings name v hb => ?_, nofun, nofun⟩
    · have hmem : frame ∈ (#[⟨[], none⟩] : Frames Value) := Array.mem_of_getElem? hframe
      rw [Array.mem_singleton.1 hmem] at hv
      cases hv
    · cases hb
  have hdefined := @Sound.define V _ hempty Machine.globalFrame Native.clock.name (.native 0 .clock) rfl
    (Value.suits_of_bindable Native.clock.bindable _)
  exact hdefined.newSerial

end Toured
end Offside
