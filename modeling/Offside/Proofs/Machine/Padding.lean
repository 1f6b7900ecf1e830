import Offside.Proofs.Binding.Nesting
import Offside.Proofs.Machine.Mirror
import Offside.Proofs.Machine.Resemblance
import Offside.Proofs.Machine.Rules

/-!
# Frames that are inserted

Two machines run trees that differ in inserted blocks.  The frames of the first one have counterparts among
those of the second, which has further frames for the inserted blocks; these bind nothing, so that what is found
along a chain of frames is the same past them.  Instances and serial numbers are the same on both sides.

* `Counterpart`, `World` — which frames correspond, and where frames are inserted on the way to the global one;
* `Value.Alike`, `Machine.Alike` — values and machines that differ in nothing else;
* `Machine.Alike.ancestor?` — chains of such machines;
* `Run.Tracks` — steps that go alike unless one of them exceeds its nesting, with one lemma for each step.
-/

set_option autoImplicit false

namespace Offside

open Binding (Shared shift shared_cons)
open Step (Pairs)

/-! ## Worlds -/

/-- A frame of the first machine and one of the second.  The pattern says of each frame on the way outward from
the second one whether it has a counterpart; behind the pattern they all have. -/
structure Counterpart where
  pattern : List Bool
  frame : FrameId
  other : FrameId

/-- The frames that correspond. -/
abbrev World := List Counterpart

/-! ## Bindings, classes and values -/

/-- The same names are bound in the same order, to values that are related. -/
structure Bindings.Alike {α : Type} (rel : α → α → Prop) (b b' : Bindings α) : Prop where
  names : b'.names = b.names
  values : ∀ name, Option.Rel rel (b.get? name) (b'.get? name)

/-- Functions whose frames correspond, with the same code but for inserted blocks.  The frame is that around the
function, with the frames of `outer` still to come. -/
structure Closure.Alike (W : World) (outer : List Bool) (f f' : Closure) : Prop where
  serial : f'.serial = f.serial
  isInitializer : f'.isInitializer = f.isInitializer
  code : ∃ p, Shared p ∧ ⟨p, f.frame, f'.frame⟩ ∈ W ∧ Routine.Spread (outer ++ p) f.routine f'.routine

/-- The methods of a class are still to be bound to an instance. -/
structure Class.Layer.Alike (W : World) (l l' : Class.Layer) : Prop where
  serial : l'.serial = l.serial
  name : l'.name = l.name
  methods : Bindings.Alike (Closure.Alike W [true]) l.methods l'.methods

/-- Classes whose layers correspond. -/
def Class.Alike (W : World) (c c' : Class) : Prop :=
  List.Forall₂ (Class.Layer.Alike W) c.lineage c'.lineage

/-- Values that are the same but for the frames and the code of functions. -/
inductive Value.Alike (W : World) : Value → Value → Prop
  | null : Value.Alike W .null .null
  | boolean (b : Bool) : Value.Alike W (.boolean b) (.boolean b)
  | number (n : Number) : Value.Alike W (.number n) (.number n)
  | text (s : String) : Value.Alike W (.text s) (.text s)
  | function {f f' : Closure} (h : f.Alike W [] f') : Value.Alike W (.function f) (.function f')
  | native (serial : Nat) (f : Native) : Value.Alike W (.native serial f) (.native serial f)
  | classValue {c c' : Class} (h : c.Alike W c') : Value.Alike W (.classValue c) (.classValue c')
  | object (id : InstanceId) {c c' : Class} (h : c.Alike W c') : Value.Alike W (.object id c) (.object id c')
  | foreign (serial : Nat) : Value.Alike W (.foreign serial) (.foreign serial)

theorem rel_imp {α β : Type} {rel rel' : α → β → Prop} {a : Option α} {b : Option β} (h : Option.Rel rel a b)
    (himp : ∀ x y, rel x y → rel' x y) : Option.Rel rel' a b := by
  cases h with
  | none => exact .none
  | some hxy => exact .some (himp _ _ hxy)

theorem rel_cases {α β : Type} {rel : α → β → Prop} {a : Option α} {b : Option β} (h : Option.Rel rel a b) :
    a = none ∧ b = none ∨ ∃ x y, a = some x ∧ b = some y ∧ rel x y := by
  cases h with
  | none => exact Or.inl ⟨rfl, rfl⟩
  | some hxy => exact Or.inr ⟨_, _, rfl, rfl, hxy⟩

namespace Bindings

variable {α : Type} {rel rel' : α → α → Prop} {b b' : Bindings α}

theorem Alike.nil : Bindings.Alike rel [] [] :=
  ⟨rfl, fun _ => .none⟩

theorem alike_self (h : ∀ name v, b.get? name = some v → rel v v) : Bindings.Alike rel b b := by
  refine ⟨rfl, fun name => ?_⟩
  cases hv : b.get? name with
  | none => exact .none
  | some v => exact .some (h name v hv)

theorem Alike.mono (h : Bindings.Alike rel b b') (hrel : ∀ v v', rel v v' → rel' v v') :
    Bindings.Alike rel' b b' :=
  ⟨h.names, fun name => rel_imp (h.values name) hrel⟩

theorem names_put (name : String) (v : α) (b : Bindings α) :
    (b.put name v).names = if name ∈ b.names then b.names else b.names ++ [name] := by
  split
  · next hmem => exact names_put_of_mem v hmem
  · next hmem => exact names_put_of_not_mem v hmem

theorem Alike.put (h : Bindings.Alike rel b b') (name : String) {v v' : α} (hv : rel v v') :
    Bindings.Alike rel (b.put name v) (b'.put name v') := by
  refine ⟨by rw [names_put, names_put, h.names], fun other => ?_⟩
  by_cases hname : name = other
  · rw [hname, get?_put_self, get?_put_self]
    exact .some hv
  · rw [get?_put_of_ne hname, get?_put_of_ne hname]
    exact h.values other

end Bindings

section Values

variable {W W' : World}

theorem Closure.Alike.mono {outer : List Bool} {f f' : Closure} (h : f.Alike W outer f') (hW : W ⊆ W') :
    f.Alike W' outer f' := by
  obtain ⟨p, hp, hmem, hspread⟩ := h.code
  exact ⟨h.serial, h.isInitializer, p, hp, hW hmem, hspread⟩

theorem Class.Alike.mono {c c' : Class} (h : c.Alike W c') (hW : W ⊆ W') : c.Alike W' c' :=
  List.Forall₂.imp (fun _ _ hl => ⟨hl.serial, hl.name, hl.methods.mono fun _ _ hf => hf.mono hW⟩) h

theorem Value.Alike.mono {v v' : Value} (h : v.Alike W v') (hW : W ⊆ W') : v.Alike W' v' := by
  cases h with
  | function h => exact .function (h.mono hW)
  | classValue h => exact .classValue (h.mono hW)
  | object id h => exact .object id (h.mono hW)
  | _ => constructor

theorem Value.alike_ofLiteral (literal : Literal) : (Value.ofLiteral literal).Alike W (Value.ofLiteral literal) := by
  cases literal <;> constructor

/-- All methods that are found in the class and its ancestors live in the first `n` frames. -/
def Class.LivesIn (n : Nat) (c : Class) : Prop :=
  ∀ l ∈ c.lineage, ∀ name f, l.methods.get? name = some f → f.frame < n

/-- The functions that the value consists of live in the first `n` frames. -/
def Value.LivesIn (n : Nat) : Value → Prop
  | .function f => f.frame < n
  | .classValue c => c.LivesIn n
  | .object _ c => c.LivesIn n
  | _ => True

section Self

variable {n : Nat} (hW : ∀ id < n, ⟨[], id, id⟩ ∈ W)

include hW

/-- A function is like itself if its frame is its own counterpart, with nothing inserted. -/
theorem Closure.alike_self {outer : List Bool} {f : Closure} (houter : false ∉ outer) (hf : f.frame < n) :
    f.Alike W outer f :=
  ⟨rfl, rfl, [], Binding.shared_nil, hW _ hf, Routine.spread_self (by rwa [List.append_nil]) f.routine⟩

theorem Class.alike_self {c : Class} (h : c.LivesIn n) : c.Alike W c :=
  List.forall₂_same.2 fun l hl => ⟨rfl, rfl, Bindings.alike_self fun name f hf =>
    Closure.alike_self hW (by decide) (h l hl name f hf)⟩

theorem Value.alike_self {v : Value} (h : v.LivesIn n) : v.Alike W v := by
  cases v with
  | function f => exact .function (Closure.alike_self hW nofun h)
  | classValue c => exact .classValue (Class.alike_self hW h)
  | object id c => exact .object id (Class.alike_self hW h)
  | _ => constructor

end Self

theorem Class.livesIn_of_closures {c : Class} (hc : c.closures = []) (n : Nat) : c.LivesIn n := by
  intro l hl name f hf
  have hmem : f ∈ c.closures :=
    List.mem_flatMap.2 ⟨l, hl, List.mem_map.2 ⟨_, Bindings.mem_of_get? hf, rfl⟩⟩
  rw [hc] at hmem
  cases hmem

/-- A value without functions is like itself. -/
theorem Value.alike_plain {v : Value} (hc : v.closures = []) : v.Alike W v := by
  have hnone : ∀ id < 0, (⟨[], id, id⟩ : Counterpart) ∈ W := nofun
  refine Value.alike_self hnone ?_
  cases v with
  | function f => cases hc
  | classValue c => exact Class.livesIn_of_closures hc 0
  | object id c => exact Class.livesIn_of_closures hc 0
  | _ => trivial

theorem Class.Alike.own {c c' : Class} (h : c.Alike W c') : c.own.Alike W c'.own :=
  (List.forall₂_cons.1 h).1

theorem Class.Alike.findMethod? {c c' : Class} (h : c.Alike W c') (name : String) :
    Option.Rel (Closure.Alike W [true]) (c.findMethod? name) (c'.findMethod? name) := by
  unfold Class.findMethod?
  unfold Class.Alike at h
  generalize c.lineage = layers at h ⊢
  generalize c'.lineage = layers' at h ⊢
  induction h with
  | nil => exact .none
  | @cons l l' more more' hl _ ih =>
    rcases rel_cases (hl.methods.values name) with ⟨hf, hf'⟩ | ⟨f, f', hf, hf', halike⟩
    · simp only [List.findSome?_cons, hf, hf']
      exact ih
    · simp only [List.findSome?_cons, hf, hf']
      exact .some halike

theorem Closure.Alike.params {outer : List Bool} {f f' : Closure} (h : f.Alike W outer f') :
    f'.routine.params = f.routine.params := by
  obtain ⟨p, -, -, hspread⟩ := h.code
  exact hspread.params_eq

namespace Value.Alike

variable {v v' u u' : Value}

theorem resembles (h : v.Alike W v') : v.Resembles v' := by
  cases h with
  | function h =>
    obtain ⟨p, -, -, hspread⟩ := h.code
    exact .function (congrArg Token.lexeme hspread.name_eq)
  | classValue h => exact .classValue h.own.name
  | object id h => exact .object id h.own.name
  | _ => constructor

theorem isTruthy (h : v.Alike W v') : v'.isTruthy = v.isTruthy :=
  h.resembles.isTruthy

theorem arity? (h : v.Alike W v') : v'.arity? = v.arity? := by
  cases h with
  | function h => simp only [Value.arity?, h.params]
  | @classValue c c' h =>
    rcases rel_cases (h.findMethod? Routine.initializerName) with ⟨hf, hf'⟩ | ⟨f, f', hf, hf', halike⟩
    · simp only [Value.arity?, Class.initializer?, hf, hf']
    · simp only [Value.arity?, Class.initializer?, hf, hf', Option.map_some, halike.params]
  | _ => rfl

theorem equal (h : v.Alike W v') (hu : u.Alike W u') : v'.equal u' = v.equal u := by
  cases h with
  | function h =>
    cases hu with
    | function hu => simp only [Value.equal, h.serial, hu.serial]
    | _ => rfl
  | classValue h =>
    cases hu with
    | classValue hu => simp only [Value.equal, h.own.serial, hu.own.serial]
    | _ => rfl
  | _ => cases hu <;> rfl

end Value.Alike

end Values

/-! ## Machines -/

/-- What a counterpart says about the frames: they bind the same names, and the frames that enclose them
correspond; or the second one is inserted, and what encloses it corresponds to the first one. -/
inductive Counterpart.Holds (W : World) (frames frames' : Frames Value) : Counterpart → Prop
  | shared {p : List Bool} {id id' : FrameId} {frame frame' : Frame Value} (hp : Shared p)
      (hframe : frames[id]? = some frame) (hframe' : frames'[id']? = some frame')
      (hbindings : Bindings.Alike (Value.Alike W) frame.bindings frame'.bindings)
      (henclosing : Option.Rel (fun o o' => ⟨p.tail, o, o'⟩ ∈ W) frame.enclosing frame'.enclosing) :
      Counterpart.Holds W frames frames' ⟨p, id, id'⟩
  | inserted {p : List Bool} {id id' o' : FrameId} (hframe' : frames'[id']? = some ⟨[], some o'⟩)
      (h : ⟨p, id, o'⟩ ∈ W) : Counterpart.Holds W frames frames' ⟨false :: p, id, id'⟩

/-- Machines that differ in inserted frames alone, and in the code of functions. -/
structure Machine.Alike (W : World) (m m' : Machine) : Prop where
  nextSerial : m'.nextSerial = m.nextSerial
  output : m'.output = m.output
  time : m'.time = m.time
  objects : m'.fields.size = m.fields.size
  fields : ∀ id : InstanceId, Option.Rel (Bindings.Alike (Value.Alike W)) m.fields[id]? m'.fields[id]?
  holds : ∀ x ∈ W, x.Holds W m.frames m'.frames
  others : ∀ x ∈ W, ∀ y ∈ W, x.other = y.other → x = y
  frames : ∀ x ∈ W, ∀ y ∈ W, Shared x.pattern → Shared y.pattern → x.frame = y.frame → x = y
  global : ⟨[], Machine.globalFrame, Machine.globalFrame⟩ ∈ W

namespace Counterpart.Holds

variable {W W' : World} {frames frames' : Frames Value} {x : Counterpart}

theorem other_lt (h : x.Holds W frames frames') : x.other < frames'.size := by
  cases h with
  | shared _ _ hframe' _ _ => exact (Array.getElem?_eq_some_iff.1 hframe').1
  | inserted hframe' _ => exact (Array.getElem?_eq_some_iff.1 hframe').1

theorem frame_lt (h : x.Holds W frames frames') (hx : Shared x.pattern) : x.frame < frames.size := by
  cases h with
  | shared _ hframe _ _ _ => exact (Array.getElem?_eq_some_iff.1 hframe).1
  | inserted => exact absurd rfl hx

/-- In a store with more frames, and a world with more counterparts. -/
theorem grow {more more' : Frames Value} (h : x.Holds W frames frames') (hW : W ⊆ W')
    (hmore : ∀ id < frames.size, more[id]? = frames[id]?)
    (hmore' : ∀ id < frames'.size, more'[id]? = frames'[id]?) : x.Holds W' more more' := by
  have hlt' := h.other_lt
  cases h with
  | shared hp hframe hframe' hbindings henclosing =>
    obtain ⟨hlt, -⟩ := Array.getElem?_eq_some_iff.1 hframe
    refine .shared hp ((hmore _ hlt).trans hframe) ((hmore' _ hlt').trans hframe')
      (hbindings.mono fun _ _ hv => hv.mono hW) ?_
    exact rel_imp henclosing fun _ _ ho => hW ho
  | inserted hframe' h => exact .inserted ((hmore' _ hlt').trans hframe') (hW h)

end Counterpart.Holds

namespace Machine.Alike

variable {W : World} {m m' : Machine} {p : List Bool} {id id' : FrameId}

/-! ### Chains of frames -/

/-- Frames that correspond, none of them inserted. -/
theorem frame (h : m.Alike W m') (hp : Shared p) (hx : ⟨p, id, id'⟩ ∈ W) :
    ∃ frame frame', m.frames[id]? = some frame ∧ m'.frames[id']? = some frame' ∧
      Bindings.Alike (Value.Alike W) frame.bindings frame'.bindings ∧
      Option.Rel (fun o o' => ⟨p.tail, o, o'⟩ ∈ W) frame.enclosing frame'.enclosing := by
  cases h.holds _ hx with
  | shared _ hframe hframe' hbindings henclosing => exact ⟨_, _, hframe, hframe', hbindings, henclosing⟩
  | inserted => exact absurd rfl hp

/-- One link up from frames that correspond. -/
theorem ancestor?_succ (h : m.Alike W m') (hp : Shared p) (hx : ⟨p, id, id'⟩ ∈ W) :
    (∀ d, m.frames.ancestor? (d + 1) id = none) ∧ (∀ d, m'.frames.ancestor? (d + 1) id' = none) ∨
      ∃ o o', ⟨p.tail, o, o'⟩ ∈ W ∧ (∀ d, m.frames.ancestor? (d + 1) id = m.frames.ancestor? d o) ∧
        ∀ d, m'.frames.ancestor? (d + 1) id' = m'.frames.ancestor? d o' := by
  obtain ⟨frame, frame', hframe, hframe', -, henclosing⟩ := h.frame hp hx
  simp only [Frames.ancestor?, hframe, hframe']
  rcases rel_cases henclosing with ⟨ho, ho'⟩ | ⟨o, o', ho, ho', hlink⟩ <;> rw [ho, ho']
  · exact Or.inl ⟨fun _ => rfl, fun _ => rfl⟩
  · exact Or.inr ⟨o, o', hlink, fun _ => rfl, fun _ => rfl⟩

/-- **Chains correspond**: past the inserted frames, the frames that far up do. -/
theorem ancestor? (h : m.Alike W m') (hx : ⟨p, id, id'⟩ ∈ W) (d : Nat) :
    Option.Rel (fun a a' => ∃ q, Shared q ∧ ⟨q, a, a'⟩ ∈ W) (m.frames.ancestor? d id)
      (m'.frames.ancestor? (shift p d) id') := by
  have hzero : ∀ {p : List Bool} {id id' : FrameId}, Shared p → ⟨p, id, id'⟩ ∈ W →
      Option.Rel (fun a a' => ∃ q, Shared q ∧ ⟨q, a, a'⟩ ∈ W) (m.frames.ancestor? 0 id)
        (m'.frames.ancestor? 0 id') := by
    intro p id id' hp hx
    have hlt := (h.holds _ hx).frame_lt hp
    have hlt' := (h.holds _ hx).other_lt
    rw [Frames.ancestor?, if_pos hlt, Frames.ancestor?, if_pos hlt']
    exact .some ⟨p, hp, hx⟩
  induction p generalizing d id id' with
  | nil =>
    rw [shift]
    induction d generalizing id id' with
    | zero => exact hzero Binding.shared_nil hx
    | succ d ih =>
      rcases h.ancestor?_succ Binding.shared_nil hx with ⟨hnone, hnone'⟩ | ⟨o, o', ho, hup, hup'⟩
      · rw [hnone, hnone']
        exact .none
      · rw [hup, hup']
        exact ih ho
  | cons b p ih =>
    cases b with
    | false =>
      cases h.holds _ hx with
      | shared hp => exact absurd rfl hp
      | inserted hframe' ho =>
        rw [shift, Frames.ancestor?, hframe']
        exact ih ho d
    | true =>
      cases d with
      | zero => exact hzero (shared_cons p) hx
      | succ d =>
        rcases h.ancestor?_succ (shared_cons p) hx with ⟨hnone, hnone'⟩ | ⟨o, o', ho, hup, hup'⟩
        · rw [hnone, shift, hnone']
          exact .none
        · rw [hup, shift, hup']
          exact ih ho d

theorem bindingsOf (h : m.Alike W m') (hp : Shared p) (hx : ⟨p, id, id'⟩ ∈ W) :
    Bindings.Alike (Value.Alike W) (m.frames.bindingsOf id) (m'.frames.bindingsOf id') := by
  obtain ⟨frame, frame', hframe, hframe', hbindings, -⟩ := h.frame hp hx
  rw [Frames.bindingsOf, hframe, Frames.bindingsOf, hframe']
  exact hbindings

/-! ### Changes -/

/-- A name is bound on both sides in frames that correspond. -/
theorem define (h : m.Alike W m') (hp : Shared p) (hx : ⟨p, id, id'⟩ ∈ W) (name : String) {v v' : Value}
    (hv : v.Alike W v') :
    Alike W { m with frames := m.frames.define id name v } { m' with frames := m'.frames.define id' name v' } := by
  refine { h with holds := fun x hmem => ?_ }
  cases h.holds x hmem with
  | @shared q other other' frame frame' hq hframe hframe' hbindings henclosing =>
    by_cases hid : id = other
    · obtain ⟨rfl, rfl, rfl⟩ := Counterpart.mk.inj (h.frames _ hx _ hmem hp hq hid)
      exact .shared hp (Frames.getElem?_define_self hframe _ _) (Frames.getElem?_define_self hframe' _ _)
        (hbindings.put name hv) henclosing
    · have hid' : id' ≠ other' := fun he =>
        hid (congrArg Counterpart.frame (h.others ⟨p, id, id'⟩ hx ⟨q, other, other'⟩ hmem he))
      exact .shared hq ((Frames.define_of_ne _ _ _ hid).trans hframe)
        ((Frames.define_of_ne _ _ _ hid').trans hframe') hbindings henclosing
  | @inserted q other other' o' hframe' ho =>
    have hid' : id' ≠ other' := by
      intro he
      obtain ⟨rfl, -, -⟩ := Counterpart.mk.inj (h.others ⟨p, id, id'⟩ hx ⟨false :: q, other, other'⟩ hmem he)
      exact hp rfl
    exact .inserted ((Frames.define_of_ne _ _ _ hid').trans hframe') ho

/-- A world with one more counterpart, whose frame on the second side is new. -/
theorem cons {x : Counterpart} {frames frames' : Frames Value} (h : m.Alike W m')
    (hframes : ∀ id < m.frames.size, frames[id]? = m.frames[id]?)
    (hframes' : ∀ id < m'.frames.size, frames'[id]? = m'.frames[id]?) (hother : x.other = m'.frames.size)
    (hframe : Shared x.pattern → x.frame = m.frames.size) (hx : x.Holds (x :: W) frames frames') :
    Alike (x :: W) { m with frames := frames } { m' with frames := frames' } := by
  have hmore : W ⊆ x :: W := List.subset_cons_self x W
  have hothers : ∀ y ∈ W, y.other ≠ x.other := fun y hy he =>
    Nat.lt_irrefl _ (hother ▸ he ▸ (h.holds y hy).other_lt)
  have hnew : ∀ y ∈ W, Shared x.pattern → Shared y.pattern → y.frame ≠ x.frame := fun y hy hxs hys he =>
    Nat.lt_irrefl _ (hframe hxs ▸ he ▸ (h.holds y hy).frame_lt hys)
  refine ⟨h.nextSerial, h.output, h.time, h.objects, ?_, ?_, ?_, ?_, hmore h.global⟩
  · intro id
    exact rel_imp (h.fields id) fun _ _ hb => hb.mono fun _ _ hv => hv.mono hmore
  · intro y hy
    rcases List.mem_cons.1 hy with rfl | hy
    · exact hx
    · exact (h.holds y hy).grow hmore hframes hframes'
  · intro y hy z hz he
    rcases List.mem_cons.1 hy with rfl | hyW <;> rcases List.mem_cons.1 hz with rfl | hzW
    · rfl
    · exact absurd he.symm (hothers z hzW)
    · exact absurd he (hothers y hyW)
    · exact h.others y hyW z hzW he
  · intro y hy z hz hys hzs he
    rcases List.mem_cons.1 hy with rfl | hyW <;> rcases List.mem_cons.1 hz with rfl | hzW
    · rfl
    · exact absurd he.symm (hnew z hzW hys hzs)
    · exact absurd he (hnew y hyW hzs hys)
    · exact h.frames y hyW z hzW hys hzs he

/-- A frame is made on both sides. -/
theorem add (h : m.Alike W m') {link link' : FrameId} (hx : ⟨p, link, link'⟩ ∈ W) :
    Alike (⟨true :: p, m.frames.size, m'.frames.size⟩ :: W) { m with frames := m.frames.add (some link) }
      { m' with frames := m'.frames.add (some link') } := by
  refine h.cons (fun id hid => Frames.getElem?_add_of_lt hid _) (fun id hid => Frames.getElem?_add_of_lt hid _)
    rfl (fun _ => rfl) ?_
  exact .shared (shared_cons p) (Frames.getElem?_add_size _ _) (Frames.getElem?_add_size _ _) .nil
    (.some (List.mem_cons_of_mem _ hx))

/-- A frame is inserted on the second side. -/
theorem insert (h : m.Alike W m') {link' : FrameId} (hx : ⟨p, id, link'⟩ ∈ W) :
    Alike (⟨false :: p, id, m'.frames.size⟩ :: W) m { m' with frames := m'.frames.add (some link') } := by
  refine h.cons (fun _ _ => rfl) (fun id hid => Frames.getElem?_add_of_lt hid _) rfl
    (fun hp => absurd rfl hp) ?_
  exact .inserted (Frames.getElem?_add_size _ _) (List.mem_cons_of_mem _ hx)

/-- An instance is made on both sides. -/
theorem push (h : m.Alike W m') :
    Alike W { m with fields := m.fields.push [] } { m' with fields := m'.fields.push [] } := by
  refine { h with objects := ?_, fields := fun id => ?_ }
  · rw [Array.size_push, Array.size_push, h.objects]
  · rw [Array.getElem?_push, Array.getElem?_push, h.objects]
    split
    · exact .some .nil
    · exact h.fields id

/-- A field is set on both sides. -/
theorem setField (h : m.Alike W m') (id : InstanceId) (name : String) {v v' : Value} (hv : v.Alike W v') :
    Alike W { m with fields := m.fields.modify id fun bindings => bindings.put name v }
      { m' with fields := m'.fields.modify id fun bindings => bindings.put name v' } := by
  refine { h with objects := ?_, fields := fun other => ?_ }
  · rw [Array.size_modify, Array.size_modify, h.objects]
  · rw [Array.getElem?_modify, Array.getElem?_modify]
    split
    · rcases rel_cases (h.fields other) with ⟨hb, hb'⟩ | ⟨b, b', hb, hb', halike⟩ <;> rw [hb, hb']
      · exact .none
      · exact .some (halike.put name hv)
    · exact h.fields other

/-- Which frames are current does not matter. -/
theorem move (h : m.Alike W m') (frame frame' : FrameId) :
    Alike W { m with current := frame } { m' with current := frame' } :=
  { h with }

end Machine.Alike

/-- The machines `m₁` and `m₁'` are alike in a world with more counterparts, at the frames of `m` and `m'`. -/
structure Machine.Abreast (W : World) (m m' : Machine) (W' : World) (m₁ m₁' : Machine) : Prop where
  more : W ⊆ W'
  alike : m₁.Alike W' m₁'
  left : m₁.current = m.current
  right : m₁'.current = m'.current

namespace Machine.Abreast

variable {W W₁ W₂ : World} {m m' m₁ m₁' m₂ m₂' : Machine}

theorem refl (h : m.Alike W m') : Abreast W m m' W m m' :=
  ⟨List.Subset.refl W, h, rfl, rfl⟩

theorem trans (h : Abreast W m m' W₁ m₁ m₁') (h' : Abreast W₁ m₁ m₁' W₂ m₂ m₂') : Abreast W m m' W₂ m₂ m₂' :=
  ⟨List.Subset.trans h.more h'.more, h'.alike, h'.left.trans h.left, h'.right.trans h.right⟩

end Machine.Abreast

/-! ## Steps -/

namespace Run

/-- The nesting exceeded its limit. -/
def Overflows {α : Type} (r : EStateM.Result Fault Machine α) : Prop :=
  ∃ m, r = .error .overflow m

/-- Unless one of them exceeds its nesting, the steps go alike: both yield values, which are related, or both stop
for the same reason; and the machines are alike. -/
def Tracks (W : World) (m m' : Machine) {α : Type} (s t : Run α) (rel : World → α → α → Prop) : Prop :=
  ¬ Overflows (s m) → ¬ Overflows (t m') →
    Pairs (fun a m₁ a' m₁' => ∃ W', Machine.Abreast W m m' W' m₁ m₁' ∧ rel W' a a')
      (fun m₁ m₁' => ∃ W', Machine.Abreast W m m' W' m₁ m₁') (s m) (t m')

section Tracks

variable {W : World} {m m' : Machine} {α β : Type} {s t : Run α} {rel : World → α → α → Prop}

theorem Tracks.of_ok {a a' : α} {W' : World} {m₁ m₁' : Machine} (hs : s m = .ok a m₁) (ht : t m' = .ok a' m₁')
    (h : Machine.Abreast W m m' W' m₁ m₁') (hrel : rel W' a a') : Tracks W m m' s t rel := by
  intro _ _
  rw [hs, ht]
  exact ⟨W', h, hrel⟩

theorem Tracks.of_error {e : Fault} (hs : s m = .error e m) (ht : t m' = .error e m') (h : m.Alike W m') :
    Tracks W m m' s t rel := by
  intro _ _
  rw [hs, ht]
  exact ⟨rfl, W, .refl h⟩

theorem Tracks.pure {a a' : α} (h : m.Alike W m') (hrel : rel W a a') :
    Tracks W m m' (pure a) (pure a') rel :=
  .of_ok rfl rfl (.refl h) hrel

theorem tracks_throw (h : m.Alike W m') (e : Fault) : Tracks W m m' (throw e : Run α) (throw e) rel :=
  .of_error rfl rfl h

theorem tracks_fail (h : m.Alike W m') (t : Token) (problem : Problem) :
    Tracks W m m' (fail t problem : Run α) (fail t problem) rel :=
  .of_error rfl rfl h

theorem Tracks.bind {f g : α → Run β} {next : World → β → β → Prop} (h : Tracks W m m' s t rel)
    (hf : ∀ a a' W₁ m₁ m₁', Machine.Abreast W m m' W₁ m₁ m₁' → rel W₁ a a' → Tracks W₁ m₁ m₁' (f a) (g a') next) :
    Tracks W m m' (s >>= f) (t >>= g) next := by
  intro hs ht
  have hs' : ¬ Overflows (s m) := fun ⟨m₁, he⟩ => hs ⟨m₁, Step.bind_of_error he⟩
  have ht' : ¬ Overflows (t m') := fun ⟨m₁, he⟩ => ht ⟨m₁, Step.bind_of_error he⟩
  have hpairs := h hs' ht'
  cases hsm : s m with
  | ok a m₁ =>
    cases htm : t m' with
    | ok a' m₁' =>
      rw [hsm, htm] at hpairs
      obtain ⟨W₁, hW₁, hrel⟩ := hpairs
      rw [Step.bind_of_ok hsm] at hs ⊢
      rw [Step.bind_of_ok htm] at ht ⊢
      refine Pairs.mono (hf a a' W₁ m₁ m₁' hW₁ hrel hs ht) ?_ ?_
      · rintro b m₂ b' m₂' ⟨W₂, hW₂, hnext⟩
        exact ⟨W₂, hW₁.trans hW₂, hnext⟩
      · rintro m₂ m₂' ⟨W₂, hW₂⟩
        exact ⟨W₂, hW₁.trans hW₂⟩
    | error e' m₁' =>
      rw [hsm, htm] at hpairs
      exact absurd hpairs id
  | error e m₁ =>
    cases htm : t m' with
    | ok a' m₁' =>
      rw [hsm, htm] at hpairs
      exact absurd hpairs id
    | error e' m₁' =>
      rw [hsm, htm] at hpairs
      rw [Step.bind_of_error hsm, Step.bind_of_error htm]
      exact hpairs

theorem Tracks.inFrame {frame frame' : FrameId}
    (h : Tracks W { m with current := frame } { m' with current := frame' } s t rel) :
    Tracks W m m' (inFrame frame s) (inFrame frame' t) rel := by
  intro hs ht
  have hs' : ¬ Overflows (s { m with current := frame }) := by
    rintro ⟨m₁, he⟩
    exact hs ⟨{ m₁ with current := m.current }, by simp only [Run.inFrame, he]⟩
  have ht' : ¬ Overflows (t { m' with current := frame' }) := by
    rintro ⟨m₁, he⟩
    exact ht ⟨{ m₁ with current := m'.current }, by simp only [Run.inFrame, he]⟩
  have hpairs := h hs' ht'
  unfold Run.inFrame
  cases hsm : s { m with current := frame } <;> cases htm : t { m' with current := frame' } <;>
    rw [hsm, htm] at hpairs
  · obtain ⟨W', hW, hrel⟩ := hpairs
    exact ⟨W', ⟨hW.more, hW.alike.move _ _, rfl, rfl⟩, hrel⟩
  · exact hpairs
  · exact hpairs
  · obtain ⟨he, W', hW⟩ := hpairs
    exact ⟨he, W', hW.more, hW.alike.move _ _, rfl, rfl⟩

end Tracks

/-! ### Steps of the machine -/

section Machine

variable {W : World} {m m' : Machine} {p : List Bool} {id id' : FrameId}

theorem tracks_currentFrame (h : m.Alike W m') :
    Tracks W m m' currentFrame currentFrame fun _ a a' => a = m.current ∧ a' = m'.current :=
  .of_ok rfl rfl (.refl h) ⟨rfl, rfl⟩

theorem tracks_newFrame (h : m.Alike W m') (hx : ⟨p, id, id'⟩ ∈ W) :
    Tracks W m m' (newFrame id) (newFrame id') fun W' a a' => ⟨true :: p, a, a'⟩ ∈ W' :=
  .of_ok rfl rfl ⟨List.subset_cons_self _ W, h.add hx, rfl, rfl⟩ List.mem_cons_self

theorem tracks_newSerial (h : m.Alike W m') : Tracks W m m' newSerial newSerial fun _ a a' => a' = a := by
  refine .of_ok rfl rfl ⟨List.Subset.refl W, ?_, rfl, rfl⟩ h.nextSerial
  exact { h with nextSerial := congrArg (· + 1) h.nextSerial }

theorem tracks_newInstance (h : m.Alike W m') : Tracks W m m' newInstance newInstance fun _ a a' => a' = a :=
  .of_ok rfl rfl ⟨List.Subset.refl W, h.push, rfl, rfl⟩ h.objects

theorem tracks_defineIn (h : m.Alike W m') (hp : Shared p) (hx : ⟨p, id, id'⟩ ∈ W) (name : String) {v v' : Value}
    (hv : v.Alike W v') : Tracks W m m' (defineIn id name v) (defineIn id' name v') fun _ _ _ => True :=
  .of_ok rfl rfl ⟨List.Subset.refl W, h.define hp hx name hv, rfl, rfl⟩ trivial

theorem tracks_define (h : m.Alike W m') (hp : Shared p) (hx : ⟨p, m.current, m'.current⟩ ∈ W) (name : String)
    {v v' : Value} (hv : v.Alike W v') : Tracks W m m' (define name v) (define name v') fun _ _ _ => True :=
  tracks_defineIn h hp hx name hv

theorem tracks_defineAt (h : m.Alike W m') (hx : ⟨p, m.current, m'.current⟩ ∈ W) (d : Nat) (name : String)
    {v v' : Value} (hv : v.Alike W v') :
    Tracks W m m' (defineAt d name v) (defineAt (shift p d) name v') fun _ _ _ => True := by
  rcases rel_cases (h.ancestor? hx d) with ⟨ha, ha'⟩ | ⟨a, a', ha, ha', q, hq, hqx⟩
  · have hs : defineAt d name v m = .error .missingFrame m := by simp only [defineAt, ha]
    have ht : defineAt (shift p d) name v' m' = .error .missingFrame m' := by simp only [defineAt, ha']
    exact .of_error hs ht h
  · have hs : defineAt d name v m = defineIn a name v m := by simp only [defineAt, ha, defineIn]
    have ht : defineAt (shift p d) name v' m' = defineIn a' name v' m' := by simp only [defineAt, ha', defineIn]
    exact .of_ok hs ht ⟨List.Subset.refl W, h.define hq hqx name hv, rfl, rfl⟩ trivial

theorem tracks_readAt (h : m.Alike W m') (hx : ⟨p, id, id'⟩ ∈ W) (d : Nat) (name : String) :
    Tracks W m m' (readAt id d name) (readAt id' (shift p d) name) Value.Alike := by
  rcases rel_cases (h.ancestor? hx d) with ⟨ha, ha'⟩ | ⟨a, a', ha, ha', q, hq, hqx⟩
  · have hs : readAt id d name m = .error .missingFrame m := by simp only [readAt, Frames.getAt, ha, faultOf]
    have ht : readAt id' (shift p d) name m' = .error .missingFrame m' := by
      simp only [readAt, Frames.getAt, ha', faultOf]
    exact .of_error hs ht h
  · rcases rel_cases ((h.bindingsOf hq hqx).values name) with ⟨hv, hv'⟩ | ⟨v, v', hv, hv', halike⟩
    · have hs : readAt id d name m = .error .missingName m := by
        simp only [readAt, Frames.getAt, ha, hv, faultOf]
      have ht : readAt id' (shift p d) name m' = .error .missingName m' := by
        simp only [readAt, Frames.getAt, ha', hv', faultOf]
      exact .of_error hs ht h
    · have hs : readAt id d name m = .ok v m := by simp only [readAt, Frames.getAt, ha, hv]
      have ht : readAt id' (shift p d) name m' = .ok v' m' := by simp only [readAt, Frames.getAt, ha', hv']
      exact .of_ok hs ht (.refl h) halike

theorem tracks_readGlobal (h : m.Alike W m') (t : Token) :
    Tracks W m m' (readGlobal t) (readGlobal t) Value.Alike := by
  rcases rel_cases ((h.bindingsOf Binding.shared_nil h.global).values t.lexeme) with
    ⟨hv, hv'⟩ | ⟨v, v', hv, hv', halike⟩
  · have hs : readGlobal t m = .error (.error (some t.line) (.undefinedVariable t.lexeme)) m := by
      simp only [readGlobal, hv]
    have ht : readGlobal t m' = .error (.error (some t.line) (.undefinedVariable t.lexeme)) m' := by
      simp only [readGlobal, hv']
    exact .of_error hs ht h
  · have hs : readGlobal t m = .ok v m := by simp only [readGlobal, hv]
    have ht : readGlobal t m' = .ok v' m' := by simp only [readGlobal, hv']
    exact .of_ok hs ht (.refl h) halike

theorem tracks_printLine (h : m.Alike W m') (text : String) :
    Tracks W m m' (printLine text) (printLine text) fun _ _ _ => True := by
  refine .of_ok rfl rfl ⟨List.Subset.refl W, ?_, rfl, rfl⟩ trivial
  exact { h with output := congrArg (· ++ text ++ "\n") h.output }

theorem tracks_readField? (h : m.Alike W m') (id : InstanceId) (name : String) :
    Tracks W m m' (readField? id name) (readField? id name) fun W' => Option.Rel (Value.Alike W') := by
  refine .of_ok rfl rfl (.refl h) ?_
  rcases rel_cases (h.fields id) with ⟨hb, hb'⟩ | ⟨b, b', hb, hb', halike⟩ <;> rw [hb, hb']
  · exact .none
  · exact halike.values name

theorem tracks_writeField (h : m.Alike W m') (id : InstanceId) (name : String) {v v' : Value}
    (hv : v.Alike W v') : Tracks W m m' (writeField id name v) (writeField id name v') fun _ _ _ => True :=
  .of_ok rfl rfl ⟨List.Subset.refl W, h.setField id name hv, rfl, rfl⟩ trivial

end Machine

/-! ### Operators and natives -/

section Operators

variable {W : World} {m m' : Machine} {arguments arguments' : List Value}

theorem Settles.tracks {s : Run Value} (h : Settles s) (hm : m.Alike W m') : Tracks W m m' s s Value.Alike := by
  cases h with
  | plain v h => exact .pure hm (Value.alike_plain h.closures)
  | stop e => exact tracks_throw hm e

/-- What the native answers is like what it answers on the other side. -/
inductive AnswerAlike (W : World) : Except String Value → Except String Value → Prop
  | ok {v v' : Value} (h : v.Alike W v') : AnswerAlike W (.ok v) (.ok v')
  | refusal (text : String) : AnswerAlike W (.error text) (.error text)

theorem tracks_now (hm : m.Alike W m') : Tracks W m m' now now fun _ a a' => a' = a :=
  .of_ok rfl rfl (.refl hm) hm.time

theorem tracks_fieldOf? (hm : m.Alike W m') {v v' : Value} (hv : v.Alike W v') (name : String) :
    Tracks W m m' (fieldOf? v name) (fieldOf? v' name) fun W' => Option.Rel (Value.Alike W') := by
  cases hv with
  | object id h => exact tracks_readField? hm id name
  | _ => exact .pure hm .none

theorem tracks_setFieldOf (hm : m.Alike W m') {v v' value value' : Value} (hv : v.Alike W v') (name : String)
    (hvalue : value.Alike W value') :
    Tracks W m m' (setFieldOf v name value) (setFieldOf v' name value') fun _ _ _ => True := by
  cases hv with
  | object id h => exact tracks_writeField hm id name hvalue
  | _ => exact .pure hm trivial

/-- Natives see no frames, so that they take the same way on both sides. -/
theorem tracks_run (hm : m.Alike W m') (script : Native.Script) {hand hand' : List Value}
    (hhand : List.Forall₂ (Value.Alike W) hand hand') :
    Tracks W m m' (script.run hand) (script.run hand') AnswerAlike := by
  have hheld : ∀ {W : World} {hand hand' : List Value}, List.Forall₂ (Value.Alike W) hand hand' →
      ∀ i, (Native.held hand i).Alike W (Native.held hand' i) :=
    fun hhand => Native.held_of_forall₂ hhand .null
  induction script generalizing W m m' hand hand' with
  | give i => exact .pure hm (.ok (hheld hhand i))
  | refuse text => exact .pure hm (.refusal text)
  | raise line problem => exact tracks_throw hm _
  | overflow => exact tracks_throw hm _
  | look i next ih =>
    rw [Native.Script.run, Native.Script.run, (hheld hhand i).resembles.view]
    exact ih _ hm hhand
  | compare i j next ih =>
    rw [Native.Script.run, Native.Script.run, (hheld hhand i).equal (hheld hhand j)]
    exact ih _ hm hhand
  | time next ih =>
    refine .bind (tracks_now hm) ?_
    rintro x _ W₁ m₁ m₁' h₁ rfl
    exact ih _ h₁.alike (hhand.imp fun _ _ hv => hv.mono h₁.more)
  | hold d next ih =>
    have hd : (Value.ofDatum d).Alike W (Value.ofDatum d) := Value.alike_plain (Value.isPlain_ofDatum d).closures
    exact ih hm (List.rel_append hhand (.cons hd .nil))
  | make next ih =>
    refine .bind (tracks_newSerial hm) ?_
    rintro serial _ W₁ m₁ m₁' h₁ rfl
    exact ih h₁.alike (List.rel_append (hhand.imp fun _ _ hv => hv.mono h₁.more) (.cons (.foreign _) .nil))
  | read i field next ih =>
    refine .bind (tracks_fieldOf? hm (hheld hhand i) field) fun found found' W₁ m₁ m₁' h₁ hfound => ?_
    have hmore := hhand.imp fun _ _ hv => Value.Alike.mono hv h₁.more
    cases hfound with
    | none => exact ih _ h₁.alike (List.rel_append hmore .nil)
    | some hv => exact ih _ h₁.alike (List.rel_append hmore (.cons hv .nil))
  | write i field j next ih =>
    refine .bind (tracks_setFieldOf hm (hheld hhand i) field (hheld hhand j)) fun _ _ W₁ m₁ m₁' h₁ _ => ?_
    exact ih h₁.alike (hhand.imp fun _ _ hv => hv.mono h₁.more)
  | print line next ih =>
    refine .bind (tracks_printLine hm line) fun _ _ W₁ m₁ m₁' h₁ _ => ?_
    exact ih h₁.alike (hhand.imp fun _ _ hv => hv.mono h₁.more)

theorem tracks_callNative (hm : m.Alike W m') (paren : Token) (f : Native)
    (h : List.Forall₂ (Value.Alike W) arguments arguments') :
    Tracks W m m' (callNative paren f arguments) (callNative paren f arguments') Value.Alike := by
  refine .bind (tracks_run hm f.script h) fun answer answer' W₁ m₁ m₁' h₁ hanswer => ?_
  cases hanswer with
  | ok hv => exact .pure h₁.alike hv
  | refusal text => exact tracks_fail h₁.alike _ _

end Operators

end Run

end Offside
