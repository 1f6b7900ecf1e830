import Offside.Proofs.Binding.Within
import Offside.Proofs.Machine.Mirror

/-!
# An account of what has been made

A serial number stands for the identity of a function, a class, a native or a foreign object, and a place in
the store of fields for that of an instance.  A ledger says what was made under each number and of which class
each instance is; it is never changed, only extended.  A machine is tidy if there is such an account of all
that it holds: frames enclose one another in the order in which they were made, classes inherit from earlier
classes, and the methods in the table of a class are held by no frame and no field, only copies of them whose
frame binds an instance.

* `Ledger`, `Value.In` — the account, and the values that it knows;
* `Ledger.Cell.Kept`, `Machine.Tidy` — what running a program keeps up;
* `Machine.WellFormed`, `Machine.Tidy.wellFormed` — what this comes to for the heap.
-/

set_option autoImplicit false

namespace Offside

open Binding (RoutineWithin)

/-! ## Ledgers -/

/-- What was made under a serial number. -/
inductive Ledger.Cell where
  /-- A function, declared by a statement. -/
  | function (f : Closure)
  /-- A method in the table of a class. -/
  | method (f : Closure)
  /-- A method that was bound to an instance. -/
  | bound (f : Closure)
  | classDef (c : Class)
  | native (f : Native)
  | foreign

/-- An account of what was made: by serial number, and for each instance its class. -/
structure Ledger where
  cells : List Ledger.Cell
  classes : List Class

namespace Ledger

/-- Whatever the first ledger knows, the second one knows too. -/
structure Extends (L L' : Ledger) : Prop where
  cells : ∀ (serial : Nat) (cell : Cell), L.cells[serial]? = some cell → L'.cells[serial]? = some cell
  classes : ∀ (id : InstanceId) (c : Class), L.classes[id]? = some c → L'.classes[id]? = some c

theorem Extends.refl (L : Ledger) : L.Extends L :=
  ⟨fun _ _ h => h, fun _ _ h => h⟩

theorem Extends.trans {L L' L'' : Ledger} (h : L.Extends L') (h' : L'.Extends L'') : L.Extends L'' :=
  ⟨fun serial cell hc => h'.cells serial cell (h.cells serial cell hc),
    fun id c hc => h'.classes id c (h.classes id c hc)⟩

/-- The ledger with one more cell. -/
def record (L : Ledger) (cell : Cell) : Ledger :=
  { L with cells := L.cells ++ [cell] }

/-- The ledger with one more instance. -/
def enroll (L : Ledger) (c : Class) : Ledger :=
  { L with classes := L.classes ++ [c] }

theorem extends_record (L : Ledger) (cell : Cell) : L.Extends (L.record cell) :=
  ⟨fun _ _ h => List.getElem?_append_left (List.getElem?_eq_some_iff.1 h).1 ▸ h, fun _ _ h => h⟩

theorem extends_enroll (L : Ledger) (c : Class) : L.Extends (L.enroll c) :=
  ⟨fun _ _ h => h, fun _ _ h => List.getElem?_append_left (List.getElem?_eq_some_iff.1 h).1 ▸ h⟩

/-- What stands in a list with one more entry. -/
theorem getElem?_concat_cases {α : Type} {xs : List α} {x y : α} {i : Nat} (h : (xs ++ [x])[i]? = some y) :
    xs[i]? = some y ∨ i = xs.length ∧ y = x := by
  rw [List.getElem?_append] at h
  split at h
  · exact Or.inl h
  · obtain ⟨hlt, hget⟩ := List.getElem?_eq_some_iff.1 h
    rw [List.length_singleton] at hlt
    refine Or.inr ⟨by omega, ?_⟩
    rw [← hget, List.getElem_singleton]

end Ledger

/-- The ledger knows the value.  A function is one that was declared or bound to an instance; the methods in
the tables of classes are no values. -/
def Value.In (L : Ledger) : Value → Prop
  | .function f => L.cells[f.serial]? = some (.function f) ∨ L.cells[f.serial]? = some (.bound f)
  | .native serial f => L.cells[serial]? = some (.native f)
  | .classValue c => L.cells[c.own.serial]? = some (.classDef c)
  | .object id c => L.classes[id]? = some c
  | .foreign serial => L.cells[serial]? = some .foreign
  | .null | .boolean _ | .number _ | .text _ => True

theorem Value.In.mono {L L' : Ledger} {v : Value} (h : v.In L) (hx : L.Extends L') : v.In L' := by
  cases v with
  | function f =>
    rcases h with h | h
    · exact Or.inl (hx.cells _ _ h)
    · exact Or.inr (hx.cells _ _ h)
  | native serial f => exact hx.cells _ _ h
  | classValue c => exact hx.cells _ _ h
  | object id c => exact hx.classes _ _ h
  | foreign serial => exact hx.cells _ _ h
  | _ => exact h

theorem Value.in_ofLiteral (L : Ledger) (literal : Literal) : (Value.ofLiteral literal).In L := by
  cases literal <;> trivial

/-! ## How deep a frame is, and what it binds -/

namespace Frames

/-- The frame is there and binds the name. -/
def Binds (frames : Frames Value) (id : FrameId) (name : String) : Prop :=
  ∃ frame, frames[id]? = some frame ∧ (frame.bindings.get? name).isSome

/-- The chain of frames from `id` reaches the global frame with the link number `n`. -/
def Deep (frames : Frames Value) (id : FrameId) (n : Nat) : Prop :=
  frames.Mirrors id (List.replicate n [])

variable {frames frames' : Frames Value} {id link : FrameId} {n : Nat} {top : Frame Value}

theorem Binds.grow {name : String} (h : frames.Binds id name) (hg : frames.Grows frames') :
    frames'.Binds id name := by
  obtain ⟨frame, hframe, hname⟩ := h
  obtain ⟨frame', hframe', -, hnames⟩ := hg id frame hframe
  exact ⟨frame', hframe', hnames name hname⟩

theorem binds_define {frame : Frame Value} (h : frames[id]? = some frame) (name : String) (value : Value) :
    (frames.define id name value).Binds id name := by
  refine ⟨_, getElem?_define_self h name value, ?_⟩
  rw [Bindings.get?_put_self]
  rfl

theorem Deep.grow (h : frames.Deep id n) (hg : frames.Grows frames') : frames'.Deep id n :=
  Mirrors.grow h hg

theorem Deep.add (h : frames.Deep id n) : (frames.add (some id)).Deep frames.size (n + 1) :=
  Mirrors.add h

theorem Deep.lt (h : frames.Deep id n) (htop : Machine.globalFrame < frames.size) : id < frames.size := by
  obtain ⟨place, hplace⟩ := exists_ancestor? h htop (Nat.zero_le _)
  unfold ancestor? at hplace
  split at hplace
  · assumption
  · cases hplace

theorem Deep.ne_global (h : frames.Deep id (n + 1)) (htop : frames[Machine.globalFrame]? = some top)
    (hnone : top.enclosing = none) : id ≠ Machine.globalFrame := by
  rintro rfl
  obtain ⟨frame, link, hframe, henc, -⟩ := h
  rw [htop] at hframe
  rw [← Option.some.inj hframe, hnone] at henc
  cases henc

/-- The global frame is found exactly as many links up as the frame is deep. -/
theorem Deep.eq_of_ancestor? {d : Nat} (h : frames.Deep id n)
    (htop : frames[Machine.globalFrame]? = some top) (hnone : top.enclosing = none)
    (hd : frames.ancestor? d id = some Machine.globalFrame) : d = n := by
  induction d generalizing id n with
  | zero =>
    cases n with
    | zero => rfl
    | succ n =>
      unfold ancestor? at hd
      split at hd
      · exact absurd (Option.some.inj hd) (h.ne_global htop hnone)
      · cases hd
  | succ d ih =>
    cases n with
    | zero =>
      obtain rfl : id = Machine.globalFrame := h
      simp only [ancestor?, htop, hnone] at hd
      cases hd
    | succ n =>
      obtain ⟨frame, link, hframe, henc, -, hlink⟩ := h
      simp only [ancestor?, hframe, henc] at hd
      exact congrArg (· + 1) (ih hlink hd)

end Frames

/-! ## Tidy machines -/

/-- The code of a closure, `extra` scopes deeper than its frame, binds only names that it may bind. -/
def Closure.Within (G : List String) (frames : Frames Value) (extra : Nat) (f : Closure) : Prop :=
  ∃ n, frames.Deep f.frame n ∧ RoutineWithin G (n + extra) f.routine

namespace Ledger

/-- A class that was made under a serial number has methods that were made earlier, and its ancestors are a
class that was made earlier and the ancestors of that class, if it has any. -/
structure Inherits (L : Ledger) (serial : Nat) (c : Class) : Prop where
  made : c.own.serial = serial
  methods : ∀ name f, c.own.methods.get? name = some f →
    L.cells[f.serial]? = some (.method f) ∧ f.serial < serial
  superclass : c.ancestors = [] ∨ ∃ parent : Class,
    L.cells[parent.own.serial]? = some (.classDef parent) ∧ parent.own.serial < serial ∧
      c.ancestors = parent.lineage

/-- A method bound to an instance is a copy of a method that was made earlier. -/
def Copies (L : Ledger) (f : Closure) : Prop :=
  ∃ method : Closure, L.cells[method.serial]? = some (.method method) ∧ method.serial < f.serial ∧
    f = { method with serial := f.serial, frame := f.frame }

/-- What is kept up about the cell under a serial number.  The frame of a bound method binds `this`. -/
def Cell.Kept (G : List String) (L : Ledger) (frames : Frames Value) (serial : Nat) : Cell → Prop
  | .function f => f.serial = serial ∧ f.isInitializer = false ∧ f.Within G frames 0
  | .method f => f.serial = serial ∧ f.Within G frames 1
  | .bound f => f.serial = serial ∧ L.Copies f ∧ frames.Binds f.frame "this" ∧ f.Within G frames 0
  | .classDef c => L.Inherits serial c
  | .native _ | .foreign => True

end Ledger

section Monotone

variable {G G' : List String} {L L' : Ledger} {frames frames' : Frames Value}

theorem Closure.Within.grow {extra : Nat} {f : Closure} (h : f.Within G frames extra)
    (hg : frames.Grows frames') : f.Within G frames' extra := by
  obtain ⟨n, hdeep, hroutine⟩ := h
  exact ⟨n, hdeep.grow hg, hroutine⟩

theorem Closure.Within.mono {extra : Nat} {f : Closure} (h : f.Within G frames extra) (hG : G ⊆ G') :
    f.Within G' frames extra := by
  obtain ⟨n, hdeep, hroutine⟩ := h
  exact ⟨n, hdeep, hroutine.mono hG⟩

theorem Ledger.Inherits.mono {serial : Nat} {c : Class} (h : L.Inherits serial c) (hx : L.Extends L') :
    L'.Inherits serial c where
  made := h.made
  methods name f hf := ⟨hx.cells _ _ (h.methods name f hf).1, (h.methods name f hf).2⟩
  superclass := by
    rcases h.superclass with hnone | ⟨parent, hparent, hrest⟩
    · exact Or.inl hnone
    · exact Or.inr ⟨parent, hx.cells _ _ hparent, hrest⟩

theorem Ledger.Copies.mono {f : Closure} (h : L.Copies f) (hx : L.Extends L') : L'.Copies f := by
  obtain ⟨method, hmethod, hrest⟩ := h
  exact ⟨method, hx.cells _ _ hmethod, hrest⟩

theorem Ledger.Cell.Kept.grow {serial : Nat} {cell : Cell} (h : cell.Kept G L frames serial)
    (hx : L.Extends L') (hg : frames.Grows frames') : cell.Kept G L' frames' serial := by
  cases cell with
  | function f => exact ⟨h.1, h.2.1, h.2.2.grow hg⟩
  | method f => exact ⟨h.1, h.2.grow hg⟩
  | bound f =>
    obtain ⟨hserial, hcopies, hthis, hwithin⟩ := h
    exact ⟨hserial, hcopies.mono hx, hthis.grow hg, hwithin.grow hg⟩
  | classDef c => exact Ledger.Inherits.mono h hx
  | native f => trivial
  | foreign => trivial

theorem Ledger.Cell.Kept.mono {serial : Nat} {cell : Cell} (h : cell.Kept G L frames serial)
    (hG : G ⊆ G') : cell.Kept G' L frames serial := by
  cases cell with
  | function f => exact ⟨h.1, h.2.1, h.2.2.mono hG⟩
  | method f => exact ⟨h.1, h.2.mono hG⟩
  | bound f => exact ⟨h.1, h.2.1, h.2.2.1, h.2.2.2.mono hG⟩
  | classDef c => exact h
  | native f => trivial
  | foreign => trivial

end Monotone

namespace Machine

/-- The ledger accounts for all that the machine holds, and the global frame binds names from `G` only. -/
structure Tidy (G : List String) (L : Ledger) (m : Machine) : Prop where
  top : ∃ frame, m.frames[globalFrame]? = some frame ∧ frame.enclosing = none
  enclosed : ∀ (id : FrameId) (frame : Frame Value), m.frames[id]? = some frame → id ≠ globalFrame →
    ∃ link, frame.enclosing = some link ∧ link < id
  serials : L.cells.length = m.nextSerial
  instances : L.classes.length = m.fields.size
  cells : ∀ (serial : Nat) (cell : Ledger.Cell), L.cells[serial]? = some cell →
    cell.Kept G L m.frames serial
  classes : ∀ (id : InstanceId) (c : Class), L.classes[id]? = some c → L.cells[c.own.serial]? = some (.classDef c)
  bound : ∀ (id : FrameId) (frame : Frame Value) (name : String) (v : Value),
    m.frames[id]? = some frame → frame.bindings.get? name = some v →
      v.In L ∧ v.Suits name ∧ (id = globalFrame → name ∈ G)
  fields : ∀ (id : InstanceId) (bindings : Bindings Value) (name : String) (v : Value),
    m.fields[id]? = some bindings → bindings.get? name = some v → v.In L

namespace Tidy

variable {G G' : List String} {L : Ledger} {m : Machine}

theorem top_lt (h : m.Tidy G L) : globalFrame < m.frames.size := by
  obtain ⟨frame, hframe, -⟩ := h.top
  exact (Array.getElem?_eq_some_iff.1 hframe).1

/-- Tidiness is about what is stored alone. -/
theorem of_eq {m' : Machine} (h : m.Tidy G L) (hframes : m'.frames = m.frames)
    (hfields : m'.fields = m.fields) (hserial : m'.nextSerial = m.nextSerial) : m'.Tidy G L where
  top := hframes ▸ h.top
  enclosed := hframes ▸ h.enclosed
  serials := hserial ▸ h.serials
  instances := hfields ▸ h.instances
  cells := hframes ▸ h.cells
  classes := h.classes
  bound := hframes ▸ h.bound
  fields := hfields ▸ h.fields

theorem mono (h : m.Tidy G L) (hG : G ⊆ G') : m.Tidy G' L where
  top := h.top
  enclosed := h.enclosed
  serials := h.serials
  instances := h.instances
  cells serial cell hcell := (h.cells serial cell hcell).mono hG
  classes := h.classes
  bound id frame name v hframe hv := by
    obtain ⟨hin, hsuits, hglobal⟩ := h.bound id frame name v hframe hv
    exact ⟨hin, hsuits, fun hid => hG (hglobal hid)⟩
  fields := h.fields

/-- The store of frames may grow by frames inside earlier ones and by bindings that the ledger knows. -/
theorem grow {frames' : Frames Value} (h : m.Tidy G L) (hg : m.frames.Grows frames')
    (henclosed : ∀ (id : FrameId) (frame : Frame Value), frames'[id]? = some frame → id ≠ globalFrame →
      ∃ link, frame.enclosing = some link ∧ link < id)
    (hbound : ∀ (id : FrameId) (frame : Frame Value) (name : String) (v : Value),
      frames'[id]? = some frame → frame.bindings.get? name = some v →
        (∃ old, m.frames[id]? = some old ∧ old.bindings.get? name = some v) ∨
          v.In L ∧ v.Suits name ∧ (id = globalFrame → name ∈ G)) :
    ({ m with frames := frames' } : Machine).Tidy G L where
  top := by
    obtain ⟨frame, hframe, hnone⟩ := h.top
    obtain ⟨frame', hframe', henc, -⟩ := hg _ frame hframe
    exact ⟨frame', hframe', henc.trans hnone⟩
  enclosed := henclosed
  serials := h.serials
  instances := h.instances
  cells serial cell hcell := (h.cells serial cell hcell).grow (.refl L) hg
  classes := h.classes
  bound := by
    intro id frame name v hframe hv
    rcases hbound id frame name v hframe hv with ⟨old, hold, hget⟩ | hnew
    · exact h.bound id old name v hold hget
    · exact hnew
  fields := h.fields

theorem add (h : m.Tidy G L) {link : FrameId} (hlink : link < m.frames.size) :
    ({ m with frames := m.frames.add (some link) } : Machine).Tidy G L := by
  -- a frame of the new store is an old one or the one that was added
  have hcases : ∀ (id : FrameId) (frame : Frame Value), (m.frames.add (some link))[id]? = some frame →
      m.frames[id]? = some frame ∨ id = m.frames.size ∧ frame = ⟨[], some link⟩ := by
    intro id frame hframe
    by_cases hid : id < m.frames.size
    · exact Or.inl ((Frames.getElem?_add_of_lt hid _).symm.trans hframe)
    · have hlt := (Array.getElem?_eq_some_iff.1 hframe).1
      rw [Frames.size_add] at hlt
      obtain rfl : id = m.frames.size := Nat.le_antisymm (Nat.lt_succ_iff.1 hlt) (Nat.le_of_not_lt hid)
      rw [Frames.getElem?_add_size] at hframe
      exact Or.inr ⟨rfl, (Option.some.inj hframe).symm⟩
  refine h.grow (Frames.grows_add _ _) ?_ ?_
  · intro id frame hframe hid
    rcases hcases id frame hframe with hold | ⟨rfl, rfl⟩
    · exact h.enclosed id frame hold hid
    · exact ⟨link, rfl, hlink⟩
  · intro id frame name v hframe hv
    rcases hcases id frame hframe with hold | ⟨-, rfl⟩
    · exact Or.inl ⟨frame, hold, hv⟩
    · cases hv

theorem define (h : m.Tidy G L) {id : FrameId} {name : String} {value : Value} (hv : value.In L)
    (hn : value.Suits name) (hglobal : id = globalFrame → name ∈ G) :
    ({ m with frames := m.frames.define id name value } : Machine).Tidy G L := by
  have hcases : ∀ (other : FrameId) (frame : Frame Value),
      (m.frames.define id name value)[other]? = some frame →
        ∃ old, m.frames[other]? = some old ∧ frame.enclosing = old.enclosing ∧
          (frame.bindings = old.bindings ∨ other = id ∧ frame.bindings = old.bindings.put name value) := by
    intro other frame hframe
    by_cases hid : id = other
    · subst hid
      obtain ⟨old, hold, rfl⟩ : ∃ old, m.frames[id]? = some old ∧
          { old with bindings := old.bindings.put name value } = frame := by
        rw [Frames.define, Array.getElem?_modify, if_pos rfl] at hframe
        exact Option.map_eq_some_iff.1 hframe
      exact ⟨old, hold, rfl, Or.inr ⟨rfl, rfl⟩⟩
    · rw [Frames.define_of_ne _ _ _ hid] at hframe
      exact ⟨frame, hframe, rfl, Or.inl rfl⟩
  refine h.grow (Frames.grows_define _ _ _ _) ?_ ?_
  · intro other frame hframe hother
    obtain ⟨old, hold, henc, -⟩ := hcases other frame hframe
    rw [henc]
    exact h.enclosed other old hold hother
  · intro other frame name' v hframe hget
    obtain ⟨old, hold, -, hsame | ⟨rfl, hput⟩⟩ := hcases other frame hframe
    · rw [hsame] at hget
      exact Or.inl ⟨old, hold, hget⟩
    · rw [hput] at hget
      by_cases hname : name = name'
      · subst hname
        rw [Bindings.get?_put_self] at hget
        obtain rfl := Option.some.inj hget
        exact Or.inr ⟨hv, hn, hglobal⟩
      · rw [Bindings.get?_put_of_ne hname] at hget
        exact Or.inl ⟨old, hold, hget⟩

/-- Making an instance of a class that the ledger knows. -/
theorem newInstance (h : m.Tidy G L) {c : Class} (hc : (Value.classValue c).In L) :
    ({ m with fields := m.fields.push [] } : Machine).Tidy G (L.enroll c) where
  top := h.top
  enclosed := h.enclosed
  serials := h.serials
  instances := by simp [Ledger.enroll, h.instances]
  cells serial cell hcell :=
    (h.cells serial cell hcell).grow (L.extends_enroll c) (Frames.Grows.refl _)
  classes := by
    intro id c' hid
    rcases Ledger.getElem?_concat_cases hid with hold | ⟨-, rfl⟩
    · exact h.classes id c' hold
    · exact hc
  bound id frame name v hframe hv := by
    obtain ⟨hin, hrest⟩ := h.bound id frame name v hframe hv
    exact ⟨hin.mono (L.extends_enroll c), hrest⟩
  fields := by
    intro id bindings name v hb hv
    rw [Array.getElem?_push] at hb
    split at hb
    · obtain rfl := Option.some.inj hb
      cases hv
    · exact (h.fields id bindings name v hb hv).mono (L.extends_enroll c)

theorem setField (h : m.Tidy G L) (id : InstanceId) (name : String) {value : Value} (hv : value.In L) :
    ({ m with fields := m.fields.modify id fun bindings => bindings.put name value } : Machine).Tidy G L where
  top := h.top
  enclosed := h.enclosed
  serials := h.serials
  instances := by simpa using h.instances
  cells := h.cells
  classes := h.classes
  bound := h.bound
  fields := by
    intro other bindings name' v hb hget
    rw [Array.getElem?_modify] at hb
    split at hb
    · obtain ⟨old, hold, rfl⟩ := Option.map_eq_some_iff.1 hb
      by_cases hname : name = name'
      · subst hname
        rw [Bindings.get?_put_self] at hget
        obtain rfl := Option.some.inj hget
        exact hv
      · rw [Bindings.get?_put_of_ne hname] at hget
        exact h.fields other old name' v hold hget
    · exact h.fields other bindings name' v hb hget

/-- Making something under the next serial number. -/
theorem newSerial (h : m.Tidy G L) (cell : Ledger.Cell)
    (hcell : cell.Kept G (L.record cell) m.frames m.nextSerial) :
    ({ m with nextSerial := m.nextSerial + 1 } : Machine).Tidy G (L.record cell) where
  top := h.top
  enclosed := h.enclosed
  serials := by simp [Ledger.record, h.serials]
  instances := h.instances
  cells := by
    intro serial cell' hserial
    rcases Ledger.getElem?_concat_cases hserial with hold | ⟨rfl, rfl⟩
    · exact (h.cells serial cell' hold).grow (L.extends_record cell) (Frames.Grows.refl _)
    · rw [h.serials]
      exact hcell
  classes id c hc := (L.extends_record cell).cells _ _ (h.classes id c hc)
  bound id frame name v hframe hv := by
    obtain ⟨hin, hrest⟩ := h.bound id frame name v hframe hv
    exact ⟨hin.mono (L.extends_record cell), hrest⟩
  fields id bindings name v hb hv := (h.fields id bindings name v hb hv).mono (L.extends_record cell)

/-! ## Natives -/

/-- Binding a native. -/
theorem defineNative (h : m.Tidy G L) (f : Native) :
    (m.defineNative f).Tidy (G ++ [f.name]) (L.record (.native f)) := by
  have hknown : (Value.native m.nextSerial f).In (L.record (.native f)) := by
    show (L.cells ++ [Ledger.Cell.native f])[m.nextSerial]? = some (.native f)
    rw [← h.serials]
    exact List.getElem?_concat_length
  have hglobal : globalFrame = globalFrame → f.name ∈ G ++ [f.name] :=
    fun _ => List.mem_append_right _ (List.mem_singleton.2 rfl)
  have hmade := (h.mono (List.subset_append_left G [f.name])).newSerial (.native f) trivial
  have hdefined := hmade.define hknown (Value.suits_of_bindable f.bindable _) hglobal
  exact hdefined.of_eq rfl rfl rfl

/-- A machine before any program has run. -/
theorem fresh (time : Float) :
    (Machine.fresh time).Tidy [Native.clock.name] ⟨[.native .clock], []⟩ := by
  have hempty : Tidy [] ⟨[], []⟩ ⟨#[⟨[], none⟩], #[], 0, globalFrame, "", time⟩ := by
    have hframes : ∀ (id : FrameId) (frame : Frame Value),
        (#[⟨[], none⟩] : Frames Value)[id]? = some frame → id = globalFrame ∧ frame = ⟨[], none⟩ := by
      intro id frame hframe
      obtain ⟨hlt, hget⟩ := Array.getElem?_eq_some_iff.1 hframe
      obtain rfl : id = 0 := Nat.lt_one_iff.1 hlt
      exact ⟨rfl, hget.symm⟩
    refine ⟨⟨_, rfl, rfl⟩, ?_, rfl, rfl, nofun, nofun, ?_, nofun⟩
    · intro id frame hframe hid
      exact absurd (hframes id frame hframe).1 hid
    · intro id frame name v hframe hv
      rw [(hframes id frame hframe).2] at hv
      cases hv
  exact hempty.defineNative .clock

/-! ## What is found in a tidy machine -/

/-- Every layer of a class holds methods that the ledger knows. -/
theorem method_of_lineage (h : m.Tidy G L) {serial : Nat} {c : Class}
    (hc : L.cells[serial]? = some (.classDef c)) {layer : Class.Layer} (hlayer : layer ∈ c.lineage)
    {name : String} {f : Closure} (hf : layer.methods.get? name = some f) :
    L.cells[f.serial]? = some (.method f) := by
  -- along the superclasses, which were made earlier
  induction serial using Nat.strongRecOn generalizing c with
  | ind serial ih =>
    have hinherits : L.Inherits serial c := h.cells serial _ hc
    rcases List.mem_cons.1 hlayer with rfl | hlayer
    · exact (hinherits.methods name f hf).1
    · rcases hinherits.superclass with hnone | ⟨parent, hparent, hlt, hancestors⟩
      · rw [hnone] at hlayer
        cases hlayer
      · rw [hancestors] at hlayer
        exact ih parent.own.serial hlt hparent hlayer

theorem method_of_findMethod? (h : m.Tidy G L) {c : Class} (hc : (Value.classValue c).In L)
    {name : String} {f : Closure} (hf : c.findMethod? name = some f) :
    L.cells[f.serial]? = some (.method f) := by
  obtain ⟨layer, hlayer, hget⟩ := List.exists_of_findSome?_eq_some hf
  exact h.method_of_lineage hc hlayer hget

/-- The code of a function that a program can hold fits the frame that the function remembers. -/
theorem within_of_function (h : m.Tidy G L) {f : Closure} (hf : (Value.function f).In L) :
    f.Within G m.frames 0 := by
  rcases hf with hf | hf
  · obtain ⟨-, -, hwithin⟩ := h.cells _ _ hf
    exact hwithin
  · obtain ⟨-, -, -, hwithin⟩ := h.cells _ _ hf
    exact hwithin

/-- What is read at a distance is known and suits its name. -/
theorem of_getAt (h : m.Tidy G L) {id : FrameId} {d : Nat} {name : String} {v : Value}
    (hget : m.frames.getAt id d name = .ok v) : v.In L ∧ v.Suits name := by
  unfold Frames.getAt at hget
  split at hget
  · cases hget
  · next place hplace =>
    split at hget
    · cases hget
    · next v' hv =>
      cases hget
      unfold Frames.bindingsOf at hv
      split at hv
      · cases hv
      · next frame hframe =>
        obtain ⟨hin, hsuits, -⟩ := h.bound place frame name v hframe hv
        exact ⟨hin, hsuits⟩

/-- What is bound globally is known. -/
theorem of_global (h : m.Tidy G L) {name : String} {v : Value}
    (hget : (m.frames.bindingsOf globalFrame).get? name = some v) : v.In L ∧ name ∈ G := by
  obtain ⟨top, htop, -⟩ := h.top
  rw [Frames.bindingsOf, htop] at hget
  obtain ⟨hin, -, hglobal⟩ := h.bound _ top name v htop hget
  exact ⟨hin, hglobal rfl⟩

/-- The chain of every frame reaches the global frame. -/
theorem exists_deep (h : m.Tidy G L) {id : FrameId} (hid : id < m.frames.size) :
    ∃ n, m.frames.Deep id n := by
  induction id using Nat.strongRecOn with
  | ind id ih =>
    by_cases htop : id = globalFrame
    · exact ⟨0, htop⟩
    · have hframe := Array.getElem?_eq_getElem hid
      obtain ⟨link, henc, hlt⟩ := h.enclosed id _ hframe htop
      obtain ⟨n, hdeep⟩ := ih link hlt (Nat.lt_trans hlt hid)
      exact ⟨n + 1, _, link, hframe, henc, fun _ hn => (nomatch hn), hdeep⟩

end Tidy

/-! ## The heap -/

end Machine

/-- What a cell of a well-formed heap refers to.  The frame of a bound method binds `this` to an instance, and
only bound methods may be initializers. -/
def Ledger.Cell.Valid (L : Ledger) (frames : Frames Value) (serial : Nat) : Ledger.Cell → Prop
  | .function f => f.serial = serial ∧ f.frame < frames.size ∧ f.isInitializer = false
  | .method f => f.serial = serial ∧ f.frame < frames.size
  | .bound f => f.serial = serial ∧ f.frame < frames.size ∧ L.Copies f ∧
      ∃ id c, frames.getAt f.frame 0 "this" = .ok (.object id c) ∧ L.classes[id]? = some c
  | .classDef c => L.Inherits serial c
  | .native _ | .foreign => True

/-- A heap of which the ledger is an account. -/
structure Machine.WellFormed (L : Ledger) (m : Machine) : Prop where
  /-- The global frame is enclosed by none. -/
  top : ∃ frame, m.frames[globalFrame]? = some frame ∧ frame.enclosing = none
  /-- Every other frame is enclosed by one that was made earlier. -/
  enclosed : ∀ (id : FrameId) (frame : Frame Value), m.frames[id]? = some frame → id ≠ globalFrame →
    ∃ link, frame.enclosing = some link ∧ link < id
  /-- So every chain ends at the global frame. -/
  chains : ∀ id, id < m.frames.size → ∃ n, m.frames.ancestor? n id = some globalFrame ∧
    m.frames.ancestor? (n + 1) id = none
  /-- Every serial number and every instance that was handed out is accounted for. -/
  serials : L.cells.length = m.nextSerial
  instances : L.classes.length = m.fields.size
  /-- Functions, methods and classes refer to frames, methods and classes that were made earlier. -/
  cells : ∀ (serial : Nat) (cell : Ledger.Cell), L.cells[serial]? = some cell →
    cell.Valid L m.frames serial
  /-- So the serial numbers along the ancestors of a class only fall. -/
  descending : ∀ (serial : Nat) (c : Class), L.cells[serial]? = some (.classDef c) →
    (c.lineage.map Class.Layer.serial).Pairwise (· > ·)
  /-- The class of every instance is one that was made. -/
  classes : ∀ (id : InstanceId) (c : Class), L.classes[id]? = some c →
    L.cells[c.own.serial]? = some (.classDef c)
  /-- Whatever is bound in a frame or stored in a field was made. -/
  bound : ∀ (id : FrameId) (frame : Frame Value) (name : String) (v : Value),
    m.frames[id]? = some frame → frame.bindings.get? name = some v → v.In L
  fields : ∀ (id : InstanceId) (bindings : Bindings Value) (name : String) (v : Value),
    m.fields[id]? = some bindings → bindings.get? name = some v → v.In L
  /-- No function that a program can hold is an entry in the table of a class. -/
  unbound : ∀ f method : Closure, (Value.function f).In L → L.cells[f.serial]? ≠ some (.method method)
  /-- So an initializer that a program can hold finds its instance. -/
  initializers : ∀ f : Closure, (Value.function f).In L → f.isInitializer = true →
    ∃ id c, m.frames.getAt f.frame 0 "this" = .ok (.object id c) ∧ L.classes[id]? = some c

namespace Machine

variable {G : List String} {L : Ledger} {m : Machine}

theorem Tidy.chain (h : m.Tidy G L) {id : FrameId} (hid : id < m.frames.size) :
    ∃ n, m.frames.ancestor? n id = some globalFrame ∧ m.frames.ancestor? (n + 1) id = none := by
  obtain ⟨n, hdeep⟩ := h.exists_deep hid
  obtain ⟨top, htop, hnone⟩ := h.top
  have hup := Frames.ancestor?_of_mirrors hdeep h.top_lt
  have hout := Frames.ancestor?_succ_of_mirrors hdeep htop hnone
  rw [List.length_replicate] at hup hout
  exact ⟨n, hup, hout⟩

theorem Tidy.valid (h : m.Tidy G L) {serial : Nat} {cell : Ledger.Cell}
    (hcell : L.cells[serial]? = some cell) : cell.Valid L m.frames serial := by
  have hkept := h.cells serial cell hcell
  cases cell with
  | function f =>
    obtain ⟨hserial, hinit, n, hdeep, -⟩ := hkept
    exact ⟨hserial, hdeep.lt h.top_lt, hinit⟩
  | method f =>
    obtain ⟨hserial, n, hdeep, -⟩ := hkept
    exact ⟨hserial, hdeep.lt h.top_lt⟩
  | bound f =>
    obtain ⟨hserial, hcopies, ⟨frame, hframe, hthis⟩, -⟩ := hkept
    have hlt : f.frame < m.frames.size := (Array.getElem?_eq_some_iff.1 hframe).1
    obtain ⟨v, hv⟩ := Option.isSome_iff_exists.1 hthis
    obtain ⟨hin, hsuits, -⟩ := h.bound f.frame frame "this" v hframe hv
    obtain ⟨id, c, rfl⟩ := hsuits.this rfl
    exact ⟨hserial, hlt, hcopies, id, c, Frames.getAt_of_bound (if_pos hlt) hframe hv, hin⟩
  | classDef c => exact hkept
  | native f => trivial
  | foreign => trivial

theorem Tidy.descending (h : m.Tidy G L) {serial : Nat} {c : Class}
    (hc : L.cells[serial]? = some (.classDef c)) :
    (c.lineage.map Class.Layer.serial).Pairwise (· > ·) := by
  induction serial using Nat.strongRecOn generalizing c with
  | ind serial ih =>
    have hinherits : L.Inherits serial c := h.cells serial _ hc
    rcases hinherits.superclass with hnone | ⟨parent, hparent, hlt, hancestors⟩
    · rw [Class.lineage, hnone]
      exact List.pairwise_singleton _ _
    · have hmore := ih parent.own.serial hlt hparent
      rw [Class.lineage, hancestors, List.map_cons, List.pairwise_cons]
      refine ⟨?_, hmore⟩
      rw [hinherits.made]
      intro other hother
      rw [Class.lineage, List.map_cons] at hother hmore
      rcases List.mem_cons.1 hother with rfl | hother
      · exact hlt
      · exact Nat.lt_trans ((List.pairwise_cons.1 hmore).1 other hother) hlt

theorem Tidy.this_of_isInitializer (h : m.Tidy G L) {f : Closure} (hf : (Value.function f).In L)
    (hinit : f.isInitializer = true) :
    ∃ id c, m.frames.getAt f.frame 0 "this" = .ok (.object id c) ∧ L.classes[id]? = some c := by
  rcases hf with hf | hf
  · obtain ⟨-, -, hplain⟩ := h.valid hf
    rw [hplain] at hinit
    cases hinit
  · obtain ⟨-, -, -, hthis⟩ := h.valid hf
    exact hthis

/-- **The heap of a tidy machine is well-formed.** -/
theorem Tidy.wellFormed (h : m.Tidy G L) : m.WellFormed L where
  top := h.top
  enclosed := h.enclosed
  chains _ hid := h.chain hid
  serials := h.serials
  instances := h.instances
  cells _ _ hcell := h.valid hcell
  descending _ _ hc := h.descending hc
  classes := h.classes
  bound id frame name v hframe hv := (h.bound id frame name v hframe hv).1
  fields := h.fields
  unbound f method hf hmethod := by
    rcases hf with hf | hf
    · rw [hf] at hmethod
      cases hmethod
    · rw [hf] at hmethod
      cases hmethod
  initializers _ hf hinit := h.this_of_isInitializer hf hinit

end Machine
end Offside
