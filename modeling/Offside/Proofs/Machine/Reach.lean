import Offside.Proofs.Machine.Upholding
import Offside.Session

/-!
# What a statement can reach

From a frame a program reaches the frames that enclose it, what they bind, the frames of functions and methods
and the fields of instances.  Executing a statement changes nothing that existed before and that cannot be
reached from the current frame or the global one, however the execution ends.

* `Machine.links`, `Machine.Reachable` — from one place to the next, and all that can be reached;
* `Machine.Untouched` — places that are left as they were;
* `Rules.reaching` — the rules by which only what can be reached is touched;
* `Run.execute_untouched` — executing a statement leaves the rest as it was.
-/

set_option autoImplicit false

namespace Offside

open Binding (Distance)
open Step (Ends)

namespace Machine

/-- Where a place leads: a frame to the one that encloses it and to what its values refer to, an instance to
what the values of its fields refer to. -/
def links (m : Machine) : Place → List Place
  | .frame id =>
    match m.frames[id]? with
    | none => []
    | some frame => frame.enclosing.toList.map .frame ++ frame.bindings.flatMap fun entry => entry.2.places
  | .object id => (m.fields[id]?.getD []).flatMap fun entry => entry.2.places

/-- What can be reached from a frame or from the global frame. -/
inductive Reachable (m : Machine) (start : FrameId) : Place → Prop
  | start : Reachable m start (.frame start)
  | global : Reachable m start (.frame globalFrame)
  | link {p q : Place} (h : Reachable m start p) (hq : q ∈ m.links p) : Reachable m start q

/-- Every frame and every instance that existed in `m` and cannot be reached from its current frame is the same
in `m'`. -/
structure Untouched (m m' : Machine) : Prop where
  frames : ∀ id < m.frames.size, ¬ m.Reachable m.current (.frame id) → m'.frames[id]? = m.frames[id]?
  objects : ∀ id < m.fields.size, ¬ m.Reachable m.current (.object id) → m'.fields[id]? = m.fields[id]?

variable {m : Machine} {start : FrameId}

theorem Reachable.mem {places : List Place} (hstart : .frame start ∈ places) (hglobal : .frame globalFrame ∈ places)
    (hclosed : ∀ p ∈ places, ∀ q ∈ m.links p, q ∈ places) {p : Place} (h : m.Reachable start p) :
    p ∈ places := by
  induction h with
  | start => exact hstart
  | global => exact hglobal
  | link _ hq ih => exact hclosed _ ih _ hq

theorem Reachable.enclosing {id : FrameId} {frame : Frame Value} (h : m.Reachable start (.frame id))
    (hframe : m.frames[id]? = some frame) {outer : FrameId} (houter : outer ∈ frame.enclosing) :
    m.Reachable start (.frame outer) := by
  refine h.link ?_
  rw [links, hframe]
  exact List.mem_append_left _ (List.mem_map.2 ⟨outer, Option.mem_toList.2 houter, rfl⟩)

theorem Reachable.binding {id : FrameId} {frame : Frame Value} (h : m.Reachable start (.frame id))
    (hframe : m.frames[id]? = some frame) {entry : String × Value} (hentry : entry ∈ frame.bindings) {p : Place}
    (hp : p ∈ entry.2.places) : m.Reachable start p := by
  refine h.link ?_
  rw [links, hframe]
  exact List.mem_append_right _ (List.mem_flatMap.2 ⟨entry, hentry, hp⟩)

theorem Reachable.field {id : InstanceId} {bindings : Bindings Value} (h : m.Reachable start (.object id))
    (hbindings : m.fields[id]? = some bindings) {entry : String × Value} (hentry : entry ∈ bindings) {p : Place}
    (hp : p ∈ entry.2.places) : m.Reachable start p := by
  refine h.link ?_
  rw [links, hbindings]
  exact List.mem_flatMap.2 ⟨entry, hentry, hp⟩

/-- Places that do not exist yet. -/
def IsNew (m : Machine) : Place → Prop
  | .frame id => m.frames.size ≤ id
  | .object id => m.fields.size ≤ id

end Machine

/-! ## The rules -/

namespace Rules

/-- Code may touch what can be reached and what is made from now on; it may bind and return as it likes. -/
def reaching (m : Machine) : Rules where
  place p := m.Reachable m.current p ∨ m.IsNew p
  name _ := True
  back _ _ := True

theorem liberal_reaching (m : Machine) : (reaching m).Liberal :=
  ⟨fun _ => trivial, fun _ _ => trivial⟩

theorem heeds_reaching {m : Machine} {v : Value} (h : ∀ p ∈ v.places, m.Reachable m.current p) :
    v.Heeds (reaching m) := by
  constructor
  · intro id hid
    exact Or.inl (h _ (List.mem_append_left _ (List.mem_map.2 ⟨id, hid, rfl⟩)))
  · intro f hf
    refine ⟨Or.inl (h _ (List.mem_append_right _ (List.mem_map.2 ⟨f, hf, rfl⟩))), ?_⟩
    exact (liberal_reaching m).routine _ _

/-- Every machine upholds the rules about what it can reach. -/
theorem upheld_reaching (m : Machine) : m.Upheld (reaching m) where
  current := Or.inl .start
  global := Or.inl .global
  newFrames _ hid := Or.inr hid
  newObjects _ hid := Or.inr hid
  enclosing id frame hid hframe outer houter := by
    rcases hid with hid | hid
    · exact Or.inl (hid.enclosing hframe houter)
    · rw [Array.getElem?_eq_none hid] at hframe
      cases hframe
  bindings id frame hid hframe entry hentry := by
    rcases hid with hid | hid
    · exact heeds_reaching fun p hp => hid.binding hframe hentry hp
    · rw [Array.getElem?_eq_none hid] at hframe
      cases hframe
  fields id bindings hid hbindings entry hentry := by
    rcases hid with hid | hid
    · exact heeds_reaching fun p hp => hid.field hbindings hentry hp
    · rw [Array.getElem?_eq_none hid] at hbindings
      cases hbindings

end Rules

/-! ## Executing a statement -/

theorem Machine.Advances.untouched {m m' : Machine} (h : m.Advances (Rules.reaching m) m') : m.Untouched m' := by
  constructor
  · intro id hlt hid
    exact h.framesOutside id fun hplace => hplace.elim hid (Nat.not_le_of_lt hlt)
  · intro id hlt hid
    exact h.objectsOutside id fun hplace => hplace.elim hid (Nat.not_le_of_lt hlt)

namespace Run

/-- **Code cannot touch what it cannot reach.**  Whatever statement is executed, from whatever machine, and
however the execution ends: every frame and every instance that existed before and cannot be reached from the
current frame or the global one is as it was. -/
theorem execute_untouched (limits : Limits) (depth : Nat) (s : Stmt Distance) (m : Machine) :
    Ends (execute limits depth s m) (fun _ m' => m.Untouched m') (fun _ m' => m.Untouched m') := by
  have hcode := (Rules.liberal_reaching m).stmt .topLevel s
  have hupholds := upholds_execute (Rules.reaching m) limits depth m .topLevel s (Rules.upheld_reaching m) hcode
  exact hupholds.ends.mono (fun _ _ h => h.1.untouched) fun _ _ h => h.untouched

/-- Two counters, the first of which is forgotten. -/
def counterText : String :=
  "function make():\n set n to \"\"\n function count():\n  set n to n + \"I\"\n  return n\n return count\n" ++
    "set one to make()\none()\nset two to make()\nset one to null\n"

/-- The machine behind `counterText`. -/
def counterMachine : Machine :=
  ((Session.fresh 0).run ⟨50, 10⟩ counterText).session.machine

/-- From the global frame only the second counter can be reached. -/
theorem counterMachine_closed :
    counterMachine.current = Machine.globalFrame ∧ 1 < counterMachine.frames.size ∧
      ((counterMachine.frames.bindingsOf 1).get? "n").map Value.display = some "I" ∧
      ∀ p ∈ [Place.frame 0, .frame 3], ∀ q ∈ counterMachine.links p, q ∈ [Place.frame 0, .frame 3] := by
  decide +kernel

/-- The count of the forgotten counter stays as it is, whatever is executed. -/
theorem execute_untouched_counter :
    ¬ counterMachine.Reachable counterMachine.current (.frame 1) ∧
      ((counterMachine.frames.bindingsOf 1).get? "n").map Value.display = some "I" ∧
      ∀ limits depth s, Ends (execute limits depth s counterMachine)
        (fun _ m' => m'.frames[1]? = counterMachine.frames[1]?)
        (fun _ m' => m'.frames[1]? = counterMachine.frames[1]?) := by
  obtain ⟨hcurrent, hlt, hcount, hclosed⟩ := counterMachine_closed
  have hforgotten : ¬ counterMachine.Reachable counterMachine.current (.frame 1) := by
    rw [hcurrent]
    intro h
    have hmem : Place.frame 1 ∈ [Place.frame 0, .frame 3] :=
      h.mem List.mem_cons_self List.mem_cons_self hclosed
    revert hmem
    decide
  refine ⟨hforgotten, hcount, fun limits depth s => ?_⟩
  exact (execute_untouched limits depth s counterMachine).mono (fun _ _ h => h.frames 1 hlt hforgotten)
    fun _ _ h => h.frames 1 hlt hforgotten

end Run
end Offside
