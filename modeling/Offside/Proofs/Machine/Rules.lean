import Offside.Machine.Evaluation
import Offside.Proofs.Machine.Resemblance
import Offside.Proofs.Steps

/-!
# Running by rules

Rules say which frames and instances a running program may touch, which names its code may bind and what its
`return` statements may carry.  A machine upholds them if whatever can be found from the places that may be
touched is such a place again, and all code found there is written by the rules.  Then a step of the machine
touches nothing else, and leaves a machine that upholds the rules.

* `Rules`, `Rules.StmtHeeds` — rules, and code that is written by them;
* `Value.Heeds`, `Machine.Upheld` — what a program may hold by the rules, and machines that keep to this;
* `Machine.Advances` — what a step leaves as it was;
* `Run.Upholds` — steps by the rules, with one lemma for each step of the machine;
* `Run.Settles` — steps that give back a plain value or stop, and so uphold any rules.
-/

set_option autoImplicit false

namespace Offside

open Binding (Body Distance)
open Step (Ends)

/-! ## Places -/

/-- A place in the heap. -/
inductive Place where
  | frame (id : FrameId)
  | object (id : InstanceId)
  deriving DecidableEq, Repr

/-- The methods of a class and of its ancestors. -/
def Class.closures (c : Class) : List Closure :=
  c.lineage.flatMap fun layer => layer.methods.map Prod.snd

/-- The functions that a value consists of: itself, or the methods of its class. -/
def Value.closures : Value → List Closure
  | .function f => [f]
  | .classValue c => c.closures
  | .object _ c => c.closures
  | _ => []

/-- The instance that a value is. -/
def Value.instances : Value → List InstanceId
  | .object id _ => [id]
  | _ => []

/-- The places that a value refers to: the instance that it is, and the frames of its functions. -/
def Value.places (v : Value) : List Place :=
  v.instances.map .object ++ v.closures.map fun f => .frame f.frame

/-- A value that was not made under a serial number, and refers to nothing that was. -/
def Value.IsPlain : Value → Prop
  | .null | .boolean _ | .number _ | .text _ => True
  | _ => False

theorem Value.IsPlain.closures {v : Value} (h : v.IsPlain) : v.closures = [] := by
  cases v with
  | function | classValue | object => exact h.elim
  | _ => rfl

theorem Value.IsPlain.instances {v : Value} (h : v.IsPlain) : v.instances = [] := by
  cases v with
  | object => exact h.elim
  | _ => rfl

theorem Value.isPlain_ofDatum (d : Datum) : (Value.ofDatum d).IsPlain := by
  cases d <;> trivial

/-- An entry of bindings is the one put there or an earlier one. -/
theorem Bindings.mem_put {α : Type} {name : String} {value : α} {bindings : Bindings α}
    {entry : String × α} (h : entry ∈ bindings.put name value) : entry = (name, value) ∨ entry ∈ bindings := by
  induction bindings with
  | nil => exact Or.inl (List.mem_singleton.1 h)
  | cons first more ih =>
    unfold put at h
    split at h
    · exact (List.mem_cons.1 h).imp_right (List.mem_cons_of_mem first)
    · rcases List.mem_cons.1 h with rfl | h
      · exact Or.inr List.mem_cons_self
      · exact (ih h).imp_right (List.mem_cons_of_mem first)

/-- A value that is found is the value of an entry. -/
theorem Bindings.mem_of_get? {α : Type} {name : String} {value : α} {bindings : Bindings α}
    (h : bindings.get? name = some value) : (name, value) ∈ bindings := by
  induction bindings with
  | nil => cases h
  | cons first more ih =>
    unfold get? at h
    split at h
    · next hname =>
      obtain rfl := Option.some.inj h
      exact hname ▸ List.mem_cons_self
    · exact List.mem_cons_of_mem first (ih h)

theorem Frames.get?_of_getAt_zero {frames : Frames Value} {id : FrameId} {name : String} {v : Value}
    (h : frames.getAt id 0 name = .ok v) : (frames.bindingsOf id).get? name = some v := by
  unfold Frames.getAt at h
  split at h
  · cases h
  · next place hplace =>
    unfold Frames.ancestor? at hplace
    split at hplace
    · obtain rfl := Option.some.inj hplace
      split at h
      · cases h
      · next v' hv =>
        cases h
        exact hv
    · cases hplace

theorem Class.mem_closures_of_findMethod? {c : Class} {name : String} {f : Closure}
    (h : c.findMethod? name = some f) : f ∈ c.closures := by
  obtain ⟨layer, hlayer, hget⟩ := List.exists_of_findSome?_eq_some h
  exact List.mem_flatMap.2 ⟨layer, hlayer, List.mem_map.2 ⟨_, Bindings.mem_of_get? hget, rfl⟩⟩

/-! ## Rules -/

/-- What code may do: the places it may touch, the names it may bind, and the kinds of bodies in which it may
return, with or without a value. -/
structure Rules where
  place : Place → Prop
  name : String → Prop
  back : Body → Bool → Prop

/-- The kind of body that the methods of a class are, as far as their returns are concerned. -/
def Routine.kind {β : Type} (r : Routine β) : Body :=
  if r.isInitializer then .initializer else .function

/-- The kind of body that a function has. -/
def Closure.kind (f : Closure) : Body :=
  if f.isInitializer then .initializer else .function

namespace Rules

section Judgements

variable (R : Rules)

mutual

/-- In a body of the given kind, the statement binds names and returns as it may. -/
def StmtHeeds (kind : Body) (s : Stmt Distance) : Prop :=
  match s with
  | .block body => StmtsHeed kind body
  | .define r => R.name r.name.lexeme ∧ RoutineHeeds .function r
  | .classDef name _ methods => R.name name.lexeme ∧ MethodsHeed methods
  | .branch _ whenTrue none => StmtHeeds kind whenTrue
  | .branch _ whenTrue (some whenFalse) => StmtHeeds kind whenTrue ∧ StmtHeeds kind whenFalse
  | .giveBack _ value => R.back kind value.isSome
  | .assign name _ _ => R.name name.lexeme
  | .loop _ body => StmtHeeds kind body
  | .evaluate _ | .print _ | .unknown => True

/-- The same of several statements. -/
def StmtsHeed (kind : Body) (ss : List (Stmt Distance)) : Prop :=
  match ss with
  | [] => True
  | s :: ss => StmtHeeds kind s ∧ StmtsHeed kind ss

/-- The same of a routine whose body is of the given kind. -/
def RoutineHeeds (kind : Body) (r : Routine Distance) : Prop :=
  match r with
  | .mk _ params body _ => (∀ t ∈ params, R.name t.lexeme) ∧ StmtsHeed kind body

/-- The same of the methods of a class. -/
def MethodsHeed (rs : List (Routine Distance)) : Prop :=
  match rs with
  | [] => True
  | r :: rs => RoutineHeeds r.kind r ∧ MethodsHeed rs

end

end Judgements

variable {R : Rules}

theorem routineHeeds_iff {kind : Body} {r : Routine Distance} :
    R.RoutineHeeds kind r ↔ (∀ t ∈ r.params, R.name t.lexeme) ∧ R.StmtsHeed kind r.body := by
  cases r
  rfl

/-- The rules leave all names and all returns free. -/
structure Liberal (R : Rules) : Prop where
  name : ∀ name, R.name name
  back : ∀ kind given, R.back kind given

mutual

/-- Any code is written by such rules. -/
theorem Liberal.stmt {R : Rules} (h : R.Liberal) : (kind : Body) → (s : Stmt Distance) → R.StmtHeeds kind s
  | kind, .block body => h.stmts kind body
  | _, .define r => ⟨h.name _, h.routine .function r⟩
  | _, .classDef _ _ methods => ⟨h.name _, h.methods methods⟩
  | kind, .branch _ whenTrue none => h.stmt kind whenTrue
  | kind, .branch _ whenTrue (some whenFalse) => ⟨h.stmt kind whenTrue, h.stmt kind whenFalse⟩
  | _, .giveBack _ _ => h.back _ _
  | _, .assign _ _ _ => h.name _
  | kind, .loop _ body => h.stmt kind body
  | _, .evaluate _ | _, .print _ | _, .unknown => trivial

theorem Liberal.stmts {R : Rules} (h : R.Liberal) : (kind : Body) → (ss : List (Stmt Distance)) →
    R.StmtsHeed kind ss
  | _, [] => trivial
  | kind, s :: ss => ⟨h.stmt kind s, h.stmts kind ss⟩

theorem Liberal.routine {R : Rules} (h : R.Liberal) : (kind : Body) → (r : Routine Distance) →
    R.RoutineHeeds kind r
  | kind, .mk _ _ body _ => ⟨fun _ _ => h.name _, h.stmts kind body⟩

theorem Liberal.methods {R : Rules} (h : R.Liberal) : (rs : List (Routine Distance)) → R.MethodsHeed rs
  | [] => trivial
  | r :: rs => ⟨h.routine r.kind r, h.methods rs⟩

end

/-- Rules that leave everything free. -/
def free : Rules where
  place _ := True
  name _ := True
  back _ _ := True

theorem liberal_free : free.Liberal :=
  ⟨fun _ => trivial, fun _ _ => trivial⟩

end Rules

/-! ## Values and machines -/

/-- A function that lives in a place that may be touched, and is written by the rules. -/
structure Closure.Heeds (R : Rules) (f : Closure) : Prop where
  place : R.place (.frame f.frame)
  code : R.RoutineHeeds f.kind f.routine

/-- A value that refers to places that may be touched, and whose functions are written by the rules. -/
structure Value.Heeds (R : Rules) (v : Value) : Prop where
  objects : ∀ id ∈ v.instances, R.place (.object id)
  functions : ∀ f ∈ v.closures, f.Heeds R

/-- Whatever is found from places that may be touched is such a place, and holds values by the rules. -/
structure Machine.Upheld (R : Rules) (m : Machine) : Prop where
  current : R.place (.frame m.current)
  global : R.place (.frame globalFrame)
  newFrames : ∀ id, m.frames.size ≤ id → R.place (.frame id)
  newObjects : ∀ id, m.fields.size ≤ id → R.place (.object id)
  enclosing : ∀ id frame, R.place (.frame id) → m.frames[id]? = some frame →
    ∀ outer ∈ frame.enclosing, R.place (.frame outer)
  bindings : ∀ id frame, R.place (.frame id) → m.frames[id]? = some frame →
    ∀ entry ∈ frame.bindings, entry.2.Heeds R
  fields : ∀ id bindings, R.place (.object id) → m.fields[id]? = some bindings →
    ∀ entry ∈ bindings, entry.2.Heeds R

/-- The machine `m'` upholds the rules and is at the frame of `m`.  Nothing is lost, whatever may not be touched
is as before, and names that code may not bind are bound as before. -/
structure Machine.Advances (R : Rules) (m m' : Machine) : Prop where
  upheld : m'.Upheld R
  current : m'.current = m.current
  frames : m.frames.size ≤ m'.frames.size
  objects : m.fields.size ≤ m'.fields.size
  framesOutside : ∀ id, ¬ R.place (.frame id) → m'.frames[id]? = m.frames[id]?
  objectsOutside : ∀ id, ¬ R.place (.object id) → m'.fields[id]? = m.fields[id]?
  kept : ∀ id name v, ¬ R.name name → (m.frames.bindingsOf id).get? name = some v →
    (m'.frames.bindingsOf id).get? name = some v

section Heeds

variable {R : Rules}

theorem Value.heeds_plain {v : Value} (hi : v.instances = []) (hc : v.closures = []) : v.Heeds R :=
  ⟨by rw [hi]; exact nofun, by rw [hc]; exact nofun⟩

theorem Value.heeds_null : Value.null.Heeds R :=
  heeds_plain rfl rfl

theorem Value.heeds_ofLiteral (literal : Literal) : (Value.ofLiteral literal).Heeds R := by
  cases literal <;> exact heeds_plain rfl rfl

theorem Closure.Heeds.value {f : Closure} (h : f.Heeds R) : (Value.function f).Heeds R :=
  ⟨nofun, fun _ hg => List.mem_singleton.1 hg ▸ h⟩

theorem Value.Heeds.closure {f : Closure} (h : (Value.function f).Heeds R) : f.Heeds R :=
  h.functions f (List.mem_singleton_self f)

theorem Value.Heeds.class {id : InstanceId} {c : Class} (h : (Value.object id c).Heeds R) :
    (Value.classValue c).Heeds R :=
  ⟨nofun, h.functions⟩

theorem Value.Heeds.object {id : InstanceId} {c : Class} (h : (Value.object id c).Heeds R) :
    R.place (.object id) :=
  h.objects id (List.mem_singleton_self id)

theorem Value.Heeds.method {c : Class} {name : String} {f : Closure} (h : (Value.classValue c).Heeds R)
    (hf : c.findMethod? name = some f) : f.Heeds R :=
  h.functions f (Class.mem_closures_of_findMethod? hf)

theorem Value.heeds_free (v : Value) : v.Heeds Rules.free :=
  ⟨fun _ _ => trivial, fun _ _ => ⟨trivial, Rules.liberal_free.routine _ _⟩⟩

end Heeds

/-! ## Machines that uphold the rules -/

namespace Machine

variable {R : Rules} {m m' m'' : Machine}

theorem upheld_free (m : Machine) : m.Upheld Rules.free where
  current := trivial
  global := trivial
  newFrames _ _ := trivial
  newObjects _ _ := trivial
  enclosing _ _ _ _ _ _ := trivial
  bindings _ _ _ _ _ _ := Value.heeds_free _
  fields _ _ _ _ _ _ := Value.heeds_free _

namespace Advances

theorem refl (h : m.Upheld R) : m.Advances R m :=
  ⟨h, rfl, Nat.le_refl _, Nat.le_refl _, fun _ _ => rfl, fun _ _ => rfl, fun _ _ _ _ hv => hv⟩

theorem trans (h : m.Advances R m') (h' : m'.Advances R m'') : m.Advances R m'' where
  upheld := h'.upheld
  current := h'.current.trans h.current
  frames := Nat.le_trans h.frames h'.frames
  objects := Nat.le_trans h.objects h'.objects
  framesOutside id hid := (h'.framesOutside id hid).trans (h.framesOutside id hid)
  objectsOutside id hid := (h'.objectsOutside id hid).trans (h.objectsOutside id hid)
  kept id name v hname hv := h'.kept id name v hname (h.kept id name v hname hv)

end Advances

namespace Upheld

/-- Only the heap and the current frame matter. -/
theorem of_eq (h : m.Upheld R) (hframes : m'.frames = m.frames) (hfields : m'.fields = m.fields)
    (hcurrent : R.place (.frame m'.current)) : m'.Upheld R :=
  ⟨hcurrent, h.global, by rw [hframes]; exact h.newFrames, by rw [hfields]; exact h.newObjects,
    by rw [hframes]; exact h.enclosing, by rw [hframes]; exact h.bindings, by rw [hfields]; exact h.fields⟩

theorem ancestor? (h : m.Upheld R) {d : Nat} {id place : FrameId} (hid : R.place (.frame id))
    (hplace : m.frames.ancestor? d id = some place) : R.place (.frame place) := by
  induction d generalizing id with
  | zero =>
    unfold Frames.ancestor? at hplace
    split at hplace
    · exact Option.some.inj hplace ▸ hid
    · cases hplace
  | succ d ih =>
    unfold Frames.ancestor? at hplace
    split at hplace
    · cases hplace
    · next frame hframe =>
      split at hplace
      · cases hplace
      · next outer houter => exact ih (h.enclosing id frame hid hframe outer houter) hplace

theorem bindingsOf (h : m.Upheld R) {id : FrameId} {name : String} {v : Value} (hid : R.place (.frame id))
    (hv : (m.frames.bindingsOf id).get? name = some v) : v.Heeds R := by
  unfold Frames.bindingsOf at hv
  split at hv
  · cases hv
  · next frame hframe => exact h.bindings id frame hid hframe _ (Bindings.mem_of_get? hv)

end Upheld

theorem bindingsOf_define (m : Machine) (id other : FrameId) (name : String) (value : Value) :
    (m.frames.define id name value).bindingsOf other = m.frames.bindingsOf other ∨
      other = id ∧ (m.frames.define id name value).bindingsOf other =
        (m.frames.bindingsOf other).put name value := by
  by_cases hid : id = other
  · subst hid
    cases hframe : m.frames[id]? with
    | none =>
      refine Or.inl ?_
      simp [Frames.bindingsOf, Frames.define, Array.getElem?_modify, hframe]
    | some frame =>
      refine Or.inr ⟨rfl, ?_⟩
      simp [Frames.bindingsOf, Frames.define, Array.getElem?_modify, hframe]
  · refine Or.inl ?_
    simp only [Frames.bindingsOf, Frames.define_of_ne _ _ _ hid]

/-- A name is bound in a frame that may be touched: a name that code may bind, or one that was not bound there. -/
theorem Upheld.define (h : m.Upheld R) {id : FrameId} {name : String} {value : Value}
    (hid : R.place (.frame id)) (hname : R.name name ∨ (m.frames.bindingsOf id).get? name = none)
    (hvalue : value.Heeds R) : m.Advances R { m with frames := m.frames.define id name value } := by
  have hcell : ∀ (other : FrameId) (frame : Frame Value), (m.frames.define id name value)[other]? = some frame →
      ∃ before : Frame Value, m.frames[other]? = some before ∧ frame.enclosing = before.enclosing ∧
        ∀ entry ∈ frame.bindings, entry = (name, value) ∨ entry ∈ before.bindings := by
    intro other frame hframe
    by_cases hother : id = other
    · subst hother
      rw [Frames.define, Array.getElem?_modify, if_pos rfl, Option.map_eq_some_iff] at hframe
      obtain ⟨before, hbefore, rfl⟩ := hframe
      exact ⟨before, hbefore, rfl, fun entry hentry => Bindings.mem_put hentry⟩
    · rw [Frames.define_of_ne _ _ _ hother] at hframe
      exact ⟨frame, hframe, rfl, fun entry hentry => Or.inr hentry⟩
  refine ⟨⟨h.current, h.global, ?_, h.newObjects, ?_, ?_, h.fields⟩, rfl, ?_, Nat.le_refl _, ?_,
    fun _ _ => rfl, ?_⟩
  · intro other hother
    exact h.newFrames other (by simpa using hother)
  · intro other frame hplace hframe outer houter
    obtain ⟨before, hbefore, henclosing, -⟩ := hcell other frame hframe
    exact h.enclosing other before hplace hbefore outer (henclosing ▸ houter)
  · intro other frame hplace hframe entry hentry
    obtain ⟨before, hbefore, -, hentries⟩ := hcell other frame hframe
    rcases hentries entry hentry with rfl | hentry
    · exact hvalue
    · exact h.bindings other before hplace hbefore entry hentry
  · exact Nat.le_of_eq (Frames.size_define _ _ _ _).symm
  · intro other hother
    refine Frames.define_of_ne _ _ _ ?_
    rintro rfl
    exact hother hid
  · intro other bound v hbound hv
    show ((m.frames.define id name value).bindingsOf other).get? bound = some v
    rcases bindingsOf_define m id other name value with hsame | ⟨rfl, hput⟩
    · rw [hsame]
      exact hv
    · rw [hput, Bindings.get?_put_of_ne, hv]
      rintro rfl
      rcases hname with hname | hname
      · exact hbound hname
      · rw [hname] at hv
        cases hv

theorem Upheld.add (h : m.Upheld R) {link : FrameId} (hlink : R.place (.frame link)) :
    m.Advances R { m with frames := m.frames.add (some link) } := by
  have hold : ∀ id, id < m.frames.size → (m.frames.add (some link))[id]? = m.frames[id]? := by
    intro id hid
    simp [Frames.add, Array.getElem?_push, Nat.ne_of_lt hid]
  have hcell : ∀ (id : FrameId) (frame : Frame Value), (m.frames.add (some link))[id]? = some frame →
      m.frames[id]? = some frame ∨ frame = ⟨[], some link⟩ := by
    intro id frame hframe
    rw [Frames.add, Array.getElem?_push] at hframe
    split at hframe
    · exact Or.inr (Option.some.inj hframe).symm
    · exact Or.inl hframe
  refine ⟨⟨h.current, h.global, ?_, h.newObjects, ?_, ?_, h.fields⟩, rfl, ?_, Nat.le_refl _, ?_,
    fun _ _ => rfl, ?_⟩
  · intro id hid
    refine h.newFrames id ?_
    rw [Frames.size_add] at hid
    omega
  · intro id frame hplace hframe outer houter
    rcases hcell id frame hframe with hframe | rfl
    · exact h.enclosing id frame hplace hframe outer houter
    · exact Option.some.inj houter ▸ hlink
  · intro id frame hplace hframe entry hentry
    rcases hcell id frame hframe with hframe | rfl
    · exact h.bindings id frame hplace hframe entry hentry
    · cases hentry
  · rw [Frames.size_add]
    omega
  · intro id hid
    exact hold id (Nat.lt_of_not_le fun hle => hid (h.newFrames id hle))
  · intro id name v _ hv
    have hlt : id < m.frames.size := by
      refine Nat.lt_of_not_le fun hge => ?_
      rw [Frames.bindingsOf, Array.getElem?_eq_none hge] at hv
      cases hv
    show ((m.frames.add (some link)).bindingsOf id).get? name = some v
    rw [Frames.bindingsOf, hold id hlt]
    exact hv

theorem Upheld.newObject (h : m.Upheld R) : m.Advances R { m with fields := m.fields.push [] } := by
  refine ⟨⟨h.current, h.global, h.newFrames, ?_, h.enclosing, h.bindings, ?_⟩, rfl, Nat.le_refl _, ?_,
    fun _ _ => rfl, ?_, fun _ _ _ _ hv => hv⟩
  · intro id hid
    refine h.newObjects id ?_
    rw [Array.size_push] at hid
    omega
  · intro id bindings hplace hget entry hentry
    rw [Array.getElem?_push] at hget
    split at hget
    · obtain rfl := Option.some.inj hget
      cases hentry
    · exact h.fields id bindings hplace hget entry hentry
  · rw [Array.size_push]
    omega
  · intro id hid
    have hlt : id < m.fields.size := Nat.lt_of_not_le fun hle => hid (h.newObjects id hle)
    simp [Array.getElem?_push, Nat.ne_of_lt hlt]

theorem Upheld.setField (h : m.Upheld R) {id : InstanceId} (name : String) {value : Value}
    (hid : R.place (.object id)) (hvalue : value.Heeds R) :
    m.Advances R { m with fields := m.fields.modify id fun bindings => bindings.put name value } := by
  refine ⟨⟨h.current, h.global, h.newFrames, ?_, h.enclosing, h.bindings, ?_⟩, rfl, Nat.le_refl _, ?_,
    fun _ _ => rfl, ?_, fun _ _ _ _ hv => hv⟩
  · intro other hother
    exact h.newObjects other (by simpa using hother)
  · intro other bindings hplace hget entry hentry
    rw [Array.getElem?_modify] at hget
    split at hget
    · obtain ⟨before, hbefore, rfl⟩ := Option.map_eq_some_iff.1 hget
      rcases Bindings.mem_put hentry with rfl | hentry
      · exact hvalue
      · exact h.fields other before hplace hbefore entry hentry
    · exact h.fields other bindings hplace hget entry hentry
  · exact Nat.le_of_eq Array.size_modify.symm
  · intro other hother
    have hne : id ≠ other := by
      rintro rfl
      exact hother hid
    simp [Array.getElem?_modify, hne]

end Machine

/-! ## Steps by the rules -/

namespace Run

/-- From `m` the steps `p` and `q` do the same, and they keep to the rules.  A value that they yield satisfies
`post`, together with the machine that they leave. -/
structure Upholds (R : Rules) (m : Machine) {α : Type} (p q : Run α) (post : α → Machine → Prop) : Prop where
  same : p m = q m
  ends : Ends (q m) (fun a m' => m.Advances R m' ∧ post a m') (fun _ m' => m.Advances R m')

section Rules

variable {R : Rules} {m : Machine} {α β : Type} {p q : Run α} {post : α → Machine → Prop}

/-! ### Putting steps together -/

theorem Upholds.of_ok {a : α} {m' : Machine} (h : p m = .ok a m') (hm : m.Advances R m') (hpost : post a m') :
    Upholds R m p p post :=
  ⟨rfl, Ends.of_ok h ⟨hm, hpost⟩⟩

theorem Upholds.of_error {e : Fault} (h : p m = .error e m) (hm : m.Upheld R) : Upholds R m p p post := by
  refine ⟨rfl, ?_⟩
  rw [h]
  exact .refl hm

theorem Upholds.pure {a : α} (hm : m.Upheld R) (hpost : post a m) : Upholds R m (pure a) (pure a) post :=
  .of_ok rfl (.refl hm) hpost

theorem upholds_throw (hm : m.Upheld R) (e : Fault) : Upholds R m (throw e : Run α) (throw e) post :=
  .of_error rfl hm

theorem upholds_fail (hm : m.Upheld R) (t : Token) (problem : Problem) :
    Upholds R m (fail t problem : Run α) (fail t problem) post :=
  upholds_throw hm _

theorem Upholds.mono {post' : α → Machine → Prop} (h : Upholds R m p q post)
    (hpost : ∀ a m', m.Advances R m' → post a m' → post' a m') : Upholds R m p q post' :=
  ⟨h.same, h.ends.mono (fun a m' ha => ⟨ha.1, hpost a m' ha.1 ha.2⟩) fun _ _ he => he⟩

/-- Steps in sequence: the second starts from whatever the first leaves. -/
theorem Upholds.bind {f g : α → Run β} {next : β → Machine → Prop} (h : Upholds R m p q post)
    (hf : ∀ a m', m.Advances R m' → post a m' → Upholds R m' (f a) (g a) next) :
    Upholds R m (p >>= f) (q >>= g) next := by
  constructor
  · refine Step.bind_congr h.same fun a m' hq => ?_
    obtain ⟨hm, hpost⟩ := h.ends.value_of_ok hq
    exact (hf a m' hm hpost).same
  · refine h.ends.mono (fun _ _ ha => ha) (fun _ _ he => he) |>.bind fun a m' ha => ?_
    exact (hf a m' ha.1 ha.2).ends.mono (fun _ _ hb => ⟨ha.1.trans hb.1, hb.2⟩) fun _ _ he => ha.1.trans he

/-- A step in another frame comes back to the current one, however it ends. -/
theorem Upholds.inFrame {frame : FrameId} (hm : m.Upheld R) (h : Upholds R { m with current := frame } p q post)
    (hpost : ∀ a m', post a m' → post a { m' with current := m.current }) :
    Upholds R m (inFrame frame p) (inFrame frame q) post := by
  have hback : ∀ m', ({ m with current := frame } : Machine).Advances R m' →
      m.Advances R { m' with current := m.current } := fun m' ha =>
    ⟨ha.upheld.of_eq rfl rfl hm.current, rfl, ha.frames, ha.objects, ha.framesOutside, ha.objectsOutside, ha.kept⟩
  have hsame := h.same
  have hends := h.ends
  cases hq : q { m with current := frame } with
  | ok a m' =>
    rw [hq] at hsame
    obtain ⟨hadvances, ha⟩ := hends.value_of_ok hq
    refine ⟨by simp only [Run.inFrame, hsame, hq], ?_⟩
    simp only [Run.inFrame, hq]
    exact ⟨hback m' hadvances, hpost a m' ha⟩
  | error e m' =>
    rw [hq] at hsame
    refine ⟨by simp only [Run.inFrame, hsame, hq], ?_⟩
    simp only [Run.inFrame, hq]
    exact hback m' (hends.fault_of_error hq)

/-! ### Steps of the machine -/

theorem upholds_currentFrame (hm : m.Upheld R) :
    Upholds R m currentFrame currentFrame fun id _ => id = m.current ∧ R.place (.frame id) :=
  .of_ok rfl (.refl hm) ⟨rfl, hm.current⟩

/-- A new frame binds nothing. -/
theorem upholds_newFrame {link : FrameId} (hm : m.Upheld R) (hlink : R.place (.frame link)) :
    Upholds R m (newFrame link) (newFrame link)
      fun id m' => R.place (.frame id) ∧ m'.frames[id]? = some ⟨[], some link⟩ := by
  refine .of_ok rfl (hm.add hlink) ⟨hm.newFrames _ (Nat.le_refl _), ?_⟩
  simp [Frames.add]

theorem upholds_newSerial (hm : m.Upheld R) : Upholds R m newSerial newSerial fun _ _ => True :=
  .of_ok rfl ⟨hm.of_eq rfl rfl hm.current, rfl, Nat.le_refl _, Nat.le_refl _, fun _ _ => rfl, fun _ _ => rfl,
    fun _ _ _ _ hv => hv⟩ trivial

theorem upholds_newInstance (hm : m.Upheld R) :
    Upholds R m newInstance newInstance fun id _ => R.place (.object id) :=
  .of_ok rfl hm.newObject (hm.newObjects _ (Nat.le_refl _))

theorem upholds_defineIn {id : FrameId} {name : String} {value : Value} (hm : m.Upheld R)
    (hid : R.place (.frame id)) (hname : R.name name ∨ (m.frames.bindingsOf id).get? name = none)
    (hvalue : value.Heeds R) :
    Upholds R m (defineIn id name value) (defineIn id name value)
      fun _ m' => m'.frames = m.frames.define id name value :=
  .of_ok rfl (hm.define hid hname hvalue) rfl

theorem upholds_define {name : String} {value : Value} (hm : m.Upheld R) (hname : R.name name)
    (hvalue : value.Heeds R) : Upholds R m (define name value) (define name value) fun _ _ => True :=
  .of_ok rfl (hm.define hm.current (Or.inl hname) hvalue) trivial

theorem upholds_defineAt {name : String} {value : Value} (hm : m.Upheld R) (d : Nat) (hname : R.name name)
    (hvalue : value.Heeds R) : Upholds R m (defineAt d name value) (defineAt d name value) fun _ _ => True := by
  cases hplace : m.frames.ancestor? d m.current with
  | none =>
    have hrun : defineAt d name value m = .error .missingFrame m := by simp only [defineAt, hplace]
    exact .of_error hrun hm
  | some place =>
    have hrun : defineAt d name value m = .ok () { m with frames := m.frames.define place name value } := by
      simp only [defineAt, hplace]
    exact .of_ok hrun (hm.define (hm.ancestor? hm.current hplace) (Or.inl hname) hvalue) trivial

theorem upholds_readAt (hm : m.Upheld R) {id : FrameId} (hid : R.place (.frame id)) (d : Nat) (name : String) :
    Upholds R m (readAt id d name) (readAt id d name)
      fun v _ => v.Heeds R ∧ m.frames.getAt id d name = .ok v := by
  cases hget : m.frames.getAt id d name with
  | error absent =>
    have hrun : readAt id d name m = .error (faultOf absent) m := by simp only [readAt, hget]
    exact .of_error hrun hm
  | ok v =>
    have hrun : readAt id d name m = .ok v m := by simp only [readAt, hget]
    refine .of_ok hrun (.refl hm) ⟨?_, rfl⟩
    unfold Frames.getAt at hget
    split at hget
    · cases hget
    · next place hplace =>
      split at hget
      · cases hget
      · next v' hv =>
        cases hget
        exact hm.bindingsOf (hm.ancestor? hid hplace) hv

theorem upholds_readGlobal (hm : m.Upheld R) (t : Token) :
    Upholds R m (readGlobal t) (readGlobal t) fun v _ => v.Heeds R := by
  cases hget : (m.frames.bindingsOf Machine.globalFrame).get? t.lexeme with
  | none =>
    have hrun : readGlobal t m = .error (.error (some t.line) (.undefinedVariable t.lexeme)) m := by
      simp only [readGlobal, hget]
    exact .of_error hrun hm
  | some v =>
    have hrun : readGlobal t m = .ok v m := by simp only [readGlobal, hget]
    exact .of_ok hrun (.refl hm) (hm.bindingsOf hm.global hget)

theorem upholds_printLine (hm : m.Upheld R) (s : String) :
    Upholds R m (printLine s) (printLine s) fun _ _ => True :=
  .of_ok rfl ⟨hm.of_eq rfl rfl hm.current, rfl, Nat.le_refl _, Nat.le_refl _, fun _ _ => rfl, fun _ _ => rfl,
    fun _ _ _ _ hv => hv⟩ trivial

theorem upholds_readField? (hm : m.Upheld R) {id : InstanceId} (hid : R.place (.object id)) (name : String) :
    Upholds R m (readField? id name) (readField? id name) fun found _ => ∀ v ∈ found, v.Heeds R := by
  refine .of_ok rfl (.refl hm) ?_
  intro v hv
  obtain ⟨bindings, hbindings, hget⟩ := Option.bind_eq_some_iff.1 hv
  exact hm.fields id bindings hid hbindings _ (Bindings.mem_of_get? hget)

theorem upholds_writeField (hm : m.Upheld R) {id : InstanceId} (hid : R.place (.object id)) (name : String)
    {value : Value} (hvalue : value.Heeds R) :
    Upholds R m (writeField id name value) (writeField id name value) fun _ _ => True :=
  .of_ok rfl (hm.setField name hid hvalue) trivial

end Rules

/-! ### Operators and natives -/

/-- Steps that do not look at the machine, and yield what refers to no place or stop the run. -/
inductive Settles : Run Value → Prop
  | plain (v : Value) (h : v.IsPlain) : Settles (pure v)
  | stop (e : Fault) : Settles (throw e)

section Operators

theorem settles_unary (operator : Token) (v : Value) : Settles (unary operator v) := by
  unfold unary
  split
  · split
    · exact .plain _ trivial
    · exact .stop _
  · exact .plain _ trivial

theorem settles_result (n : Option Number) : Settles (result n) := by
  cases n with
  | none => exact .stop _
  | some n => exact .plain _ trivial

theorem settles_plus (operator : Token) (l r : Value) : Settles (plus operator l r) := by
  unfold plus
  split
  · exact settles_result _
  · exact .plain _ trivial
  · exact .plain _ trivial
  · exact .stop _

theorem settles_numeric {k : Token.Kind} {operation : Number → Number → Run Value}
    (h : numeric? k = some operation) (a b : Number) : Settles (operation a b) := by
  unfold numeric? at h
  split at h
  all_goals first | (obtain rfl := Option.some.inj h) | cases h
  · exact settles_result _
  · exact settles_result _
  · exact settles_result _
  all_goals exact .plain _ trivial

theorem settles_binary (operator : Token) (l r : Value) : Settles (binary operator l r) := by
  unfold binary
  split
  · next operation hop =>
    split
    · exact settles_numeric hop _ _
    · exact .stop _
  · split
    · exact settles_plus operator l r
    · exact .plain _ trivial
    · exact .plain _ trivial
    · exact .stop _

variable {R : Rules} {m : Machine}

theorem Settles.upholds {p : Run Value} (h : Settles p) (hm : m.Upheld R) :
    Upholds R m p p fun v _ => v.Heeds R := by
  cases h with
  | plain v h => exact .pure hm (Value.heeds_plain h.instances h.closures)
  | stop e => exact upholds_throw hm e

theorem upholds_now (hm : m.Upheld R) : Upholds R m now now fun _ _ => True :=
  .of_ok rfl (.refl hm) trivial

theorem upholds_fieldOf? (hm : m.Upheld R) {v : Value} (hv : v.Heeds R) (name : String) :
    Upholds R m (fieldOf? v name) (fieldOf? v name) fun found _ => ∀ w ∈ found, w.Heeds R := by
  cases v with
  | object id c => exact upholds_readField? hm hv.object name
  | _ => exact .pure hm nofun

theorem upholds_setFieldOf (hm : m.Upheld R) {v value : Value} (hv : v.Heeds R) (name : String)
    (hvalue : value.Heeds R) :
    Upholds R m (setFieldOf v name value) (setFieldOf v name value) fun _ _ => True := by
  cases v with
  | object id c => exact upholds_writeField hm hv.object name hvalue
  | _ => exact .pure hm trivial

/-- A native touches only what may be touched, as long as its hand refers to nothing else: there is no way from its
hand to other places, and it stays at the current frame. -/
theorem upholds_run (hm : m.Upheld R) (script : Native.Script) {hand : List Value} (hhand : ∀ v ∈ hand, v.Heeds R) :
    Upholds R m (script.run hand) (script.run hand) fun result _ => ∀ v, result = .ok v → v.Heeds R := by
  have hheld : ∀ {hand : List Value}, (∀ v ∈ hand, v.Heeds R) → ∀ i, (Native.held hand i).Heeds R :=
    fun hhand => Native.held_of_forall hhand Value.heeds_null
  induction script generalizing m hand with
  | give i => exact .pure hm fun _ hok => Except.ok.inj hok ▸ hheld hhand i
  | refuse text => exact .pure hm nofun
  | raise line problem => exact upholds_throw hm _
  | overflow => exact upholds_throw hm _
  | look i next ih => exact ih _ hm hhand
  | compare i j next ih => exact ih _ hm hhand
  | time next ih => exact .bind (upholds_now hm) fun x m₁ h₁ _ => ih x h₁.upheld hhand
  | hold d next ih =>
    have hd : (Value.ofDatum d).Heeds R :=
      Value.heeds_plain (Value.isPlain_ofDatum d).instances (Value.isPlain_ofDatum d).closures
    exact ih hm (List.forall_mem_append.2 ⟨hhand, List.forall_mem_singleton.2 hd⟩)
  | make next ih =>
    refine .bind (upholds_newSerial hm) fun serial m₁ h₁ _ => ?_
    have hserial : (Value.foreign serial).Heeds R := Value.heeds_plain rfl rfl
    exact ih h₁.upheld (List.forall_mem_append.2 ⟨hhand, List.forall_mem_singleton.2 hserial⟩)
  | read i field next ih =>
    refine .bind (upholds_fieldOf? hm (hheld hhand i) field) fun found m₁ h₁ hfound => ?_
    have hmore : ∀ v ∈ found.toList, v.Heeds R := fun v hv => hfound v (Option.mem_toList.1 hv)
    exact ih _ h₁.upheld (List.forall_mem_append.2 ⟨hhand, hmore⟩)
  | write i field j next ih =>
    exact .bind (upholds_setFieldOf hm (hheld hhand i) field (hheld hhand j)) fun _ m₁ h₁ _ => ih h₁.upheld hhand
  | print line next ih => exact .bind (upholds_printLine hm line) fun _ m₁ h₁ _ => ih h₁.upheld hhand

theorem upholds_callNative (hm : m.Upheld R) (paren : Token) (f : Native) {arguments : List Value}
    (hargs : ∀ v ∈ arguments, v.Heeds R) :
    Upholds R m (callNative paren f arguments) (callNative paren f arguments) fun v _ => v.Heeds R := by
  refine .bind (upholds_run hm f.script hargs) fun result m₁ h₁ hresult => ?_
  cases result with
  | ok v => exact .pure h₁.upheld (hresult v rfl)
  | error text => exact upholds_fail h₁.upheld _ _

end Operators

end Run
end Offside
