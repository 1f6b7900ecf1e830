/-!
# Frames

A frame holds the bindings of one activation of a scope and a link to the frame that encloses it.  Frames
live in a store and are known by their position in it; names keep the order in which they were first bound.

* `Bindings` — names with values; `Bindings.get?_put_self` and `Bindings.get?_put_of_ne` say what binding
  a name does;
* `Frames.ancestor?` — the frame a number of links up;
* `Frames.getAt`, `Frames.defineAt?` — reading and binding at a distance.
-/

set_option autoImplicit false

namespace Offside

variable {α : Type}

/-! ## Bindings -/

/-- Names with their values, in the order in which the names were first bound. -/
abbrev Bindings (α : Type) := List (String × α)

namespace Bindings

/-- Binds a name; a name that was bound keeps its place. -/
def put (name : String) (value : α) : Bindings α → Bindings α
  | [] => [(name, value)]
  | entry :: more =>
    if entry.1 = name then (name, value) :: more else entry :: put name value more

/-- The value bound to a name. -/
def get? (bindings : Bindings α) (name : String) : Option α :=
  match bindings with
  | [] => none
  | entry :: more => if entry.1 = name then some entry.2 else get? more name

/-- The bound names in order. -/
def names (bindings : Bindings α) : List String :=
  bindings.map Prod.fst

@[simp] theorem get?_put_self (name : String) (value : α) (bindings : Bindings α) :
    get? (put name value bindings) name = some value := by
  induction bindings with
  | nil => simp [put, get?]
  | cons entry more ih =>
    by_cases h : entry.1 = name <;> simp [put, get?, h, ih]

theorem get?_put_of_ne {name other : String} (h : name ≠ other) (value : α) (bindings : Bindings α) :
    get? (put name value bindings) other = get? bindings other := by
  induction bindings with
  | nil => simp [put, get?, h]
  | cons entry more ih =>
    by_cases he : entry.1 = name
    · have : entry.1 ≠ other := fun h' => h (he.symm.trans h')
      simp [put, get?, he, h]
    · simp [put, get?, he, ih]

theorem names_put_of_mem {name : String} {bindings : Bindings α} (value : α)
    (h : name ∈ names bindings) : names (put name value bindings) = names bindings := by
  induction bindings with
  | nil => simp [names] at h
  | cons entry more ih =>
    by_cases he : entry.1 = name
    · simp [put, names, he]
    · have hm : name ∈ names more := by
        simpa [names, Ne.symm he] using h
      have := ih hm
      simp_all [put, names]

theorem names_put_of_not_mem {name : String} {bindings : Bindings α} (value : α)
    (h : name ∉ names bindings) : names (put name value bindings) = names bindings ++ [name] := by
  induction bindings with
  | nil => rfl
  | cons entry more ih =>
    have he : entry.1 ≠ name := fun he => h (by simp [names, he])
    have hm : name ∉ names more := fun hm => h (by simp_all [names])
    have := ih hm
    simp_all [put, names]

end Bindings

/-! ## The store of frames -/

/-- The place of a frame in its store. -/
abbrev FrameId := Nat

/-- The bindings of one activation and the enclosing frame; the global frame is enclosed by none. -/
structure Frame (α : Type) where
  bindings : Bindings α
  enclosing : Option FrameId
  deriving Repr

/-- A store of frames. -/
abbrev Frames (α : Type) := Array (Frame α)

/-- What is missing when a name is not found at a distance. -/
inductive Absent where
  | frame
  | name
  deriving DecidableEq, Repr

namespace Frames

/-- Adds a frame without bindings. -/
def add (frames : Frames α) (enclosing : Option FrameId) : Frames α :=
  frames.push ⟨[], enclosing⟩

/-- The frame `distance` links up from a frame. -/
def ancestor? (frames : Frames α) : Nat → FrameId → Option FrameId
  | 0, id => if id < frames.size then some id else none
  | distance + 1, id =>
    match frames[id]? with
    | none => none
    | some frame =>
      match frame.enclosing with
      | none => none
      | some outer => ancestor? frames distance outer

/-- The bindings of a frame. -/
def bindingsOf (frames : Frames α) (id : FrameId) : Bindings α :=
  match frames[id]? with
  | none => []
  | some frame => frame.bindings

/-- Binds a name in a frame. -/
def define (frames : Frames α) (id : FrameId) (name : String) (value : α) : Frames α :=
  frames.modify id fun frame => { frame with bindings := frame.bindings.put name value }

/-- The value bound to a name in the frame `distance` links up. -/
def getAt (frames : Frames α) (id : FrameId) (distance : Nat) (name : String) : Except Absent α :=
  match frames.ancestor? distance id with
  | none => .error .frame
  | some place =>
    match (frames.bindingsOf place).get? name with
    | none => .error .name
    | some value => .ok value

/-- Binds a name in the frame `distance` links up, if there is one. -/
def defineAt? (frames : Frames α) (id : FrameId) (distance : Nat) (name : String) (value : α) :
    Option (Frames α) :=
  (frames.ancestor? distance id).map fun place => frames.define place name value

@[simp] theorem size_define (frames : Frames α) (id : FrameId) (name : String) (value : α) :
    (frames.define id name value).size = frames.size := by
  simp [define]

@[simp] theorem size_add (frames : Frames α) (enclosing : Option FrameId) :
    (frames.add enclosing).size = frames.size + 1 := by
  simp [add]

theorem define_of_ne (frames : Frames α) {id other : FrameId} (name : String) (value : α)
    (h : id ≠ other) : (frames.define id name value)[other]? = frames[other]? := by
  simp [define, Array.getElem?_modify, h]

end Frames
end Offside
