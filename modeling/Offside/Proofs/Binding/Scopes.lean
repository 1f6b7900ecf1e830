import Offside.Binding
import Offside.Proofs.Reader.Plain

/-!
# Scopes while names are bound

What the open scopes hold at a place of a program, and what declaring names and opening scopes does to it.

* `Binding.Ready` — a name is declared at a distance and has its value;
* `Binding.AllReady` — no name is pending;
* `Binding.Owned` — the instance and the superclass are found where the class around a place put them;
* `Binding.ready_of_distance?` — a name that is found is ready unless it is pending.
-/

set_option autoImplicit false

namespace Offside.Binding

/-! ## Declaring names -/

/-- The scope `d` steps outward declares the name, and its value is ready. -/
def Ready (scopes : List Scope) (d : Nat) (name : String) : Prop :=
  ∃ scope, scopes[d]? = some scope ∧ scope.lookup name = some true

/-- The scopes behind a statement that stands in the given ones. -/
def declared : Stmt Distance → List Scope → List Scope
  | .assign name _ none, scopes => enter name.lexeme true (enter name.lexeme false scopes)
  | .define r, scopes => enter r.name.lexeme true scopes
  | .classDef name _ _, scopes => enter name.lexeme true scopes
  | _, scopes => scopes

/-- The scopes around the methods of a class, with or without a superclass. -/
def classScopes (derived : Bool) (scopes : List Scope) : List Scope :=
  [("this", true)] :: if derived then [("super", true)] :: scopes else scopes
theorem length_enter (name : String) (ready : Bool) (scopes : List Scope) :
    (enter name ready scopes).length = scopes.length := by
  cases scopes <;> rfl

theorem tail_enter (name : String) (ready : Bool) (scopes : List Scope) :
    (enter name ready scopes).tail = scopes.tail := by
  cases scopes <;> rfl

theorem tail_declared (s : Stmt Distance) (scopes : List Scope) :
    (declared s scopes).tail = scopes.tail := by
  unfold declared
  split <;> simp only [tail_enter]

theorem declared_of_boundName? {s : Stmt Distance} (h : boundName? s = none) (scopes : List Scope) :
    declared s scopes = scopes := by
  cases s <;> first | rfl | cases h

theorem declares_iff (scope : Scope) (name : String) :
    scope.declares name = true ↔ ∃ ready, scope.lookup name = some ready := by
  rw [← Option.isSome_iff_exists, List.lookup_isSome_iff, Scope.declares, List.any_eq_true]
  simp only [beq_iff_eq]
  exact exists_congr fun _ => and_congr_right fun _ => eq_comm

theorem declares_cons_of_ne {name other : String} (h : name ≠ other) (ready : Bool) (scope : Scope) :
    Scope.declares ((name, ready) :: scope) other = scope.declares other := by
  simp [Scope.declares, h]

theorem distance?_enter_of_ne {name other : String} (h : name ≠ other) (ready : Bool)
    (scopes : List Scope) : distance? (enter name ready scopes) other = distance? scopes other := by
  cases scopes with
  | nil => rfl
  | cons scope outer =>
    simp only [enter, distance?, List.findIdx?_cons, declares_cons_of_ne h]

theorem distance?_cons_of_not_declares {name : String} {scope : Scope} (h : scope.declares name = false)
    (scopes : List Scope) : distance? (scope :: scopes) name = (distance? scopes name).map (· + 1) := by
  simp only [distance?, List.findIdx?_cons, h]
  rfl

theorem ready_enter_of_ne {name other : String} (h : name ≠ other) {ready : Bool} {d : Nat}
    {scopes : List Scope} (hd : Ready scopes d other) : Ready (enter name ready scopes) d other := by
  cases scopes with
  | nil => exact hd
  | cons scope outer =>
    obtain ⟨found, hfound, hlookup⟩ := hd
    cases d with
    | succ d => exact ⟨found, hfound, hlookup⟩
    | zero =>
      obtain rfl := Option.some.inj hfound
      refine ⟨_, rfl, ?_⟩
      rw [List.lookup_cons, beq_eq_false_iff_ne.2 (Ne.symm h)]
      exact hlookup

theorem le_of_target? {globals : List String} {scopes : List Scope} {name : String} {d : Nat}
    (h : target? globals scopes name = some d) : d ≤ scopes.length := by
  unfold target? at h
  split at h
  · next hd =>
    obtain rfl := Option.some.inj h
    obtain ⟨hlt, -⟩ := List.findIdx?_eq_some_iff_getElem.1 hd
    exact Nat.le_of_lt hlt
  · split at h
    · cases h; exact Nat.le_refl _
    · cases h

/-! ## Pending names -/

/-- No name is declared with its value still to come. -/
def AllReady (scopes : List Scope) : Prop :=
  ∀ scope ∈ scopes, ∀ name, List.lookup name scope ≠ some false

theorem AllReady.cons {scope : Scope} {scopes : List Scope} (hs : ∀ name, scope.lookup name ≠ some false)
    (h : AllReady scopes) : AllReady (scope :: scopes) :=
  List.forall_mem_cons.2 ⟨hs, h⟩

theorem AllReady.tail {scopes : List Scope} (h : AllReady scopes) : AllReady scopes.tail :=
  fun scope hscope => h scope (List.mem_of_mem_tail hscope)

/-- A name that gets its value leaves nothing pending, if only it was. -/
theorem AllReady.enter {scopes : List Scope} (name : String) (h : AllReady scopes) :
    AllReady (enter name true scopes) := by
  cases scopes with
  | nil => exact h
  | cons scope outer =>
    refine AllReady.cons (fun other => ?_) h.tail
    rw [List.lookup_cons]
    cases other == name with
    | true => simp
    | false => exact h scope List.mem_cons_self other

theorem AllReady.declared {scopes : List Scope} (s : Stmt Distance) (h : AllReady scopes) :
    AllReady (declared s scopes) := by
  unfold Binding.declared
  split
  · next name _ =>
    cases scopes with
    | nil => exact h
    | cons scope outer =>
      refine AllReady.cons (fun other => ?_) h.tail
      rw [List.lookup_cons, List.lookup_cons]
      cases other == name.lexeme with
      | true => simp
      | false => exact h scope List.mem_cons_self other
  · exact h.enter _
  · exact h.enter _
  · exact h

theorem lookup_paramScope (params : List Token) (name : String) :
    (paramScope params).lookup name ≠ some false := by
  intro h
  obtain ⟨before, behind, hparams, -⟩ := List.lookup_eq_some_iff.1 h
  have hmem : (name, false) ∈ paramScope params := by
    rw [hparams]
    exact List.mem_append_right before List.mem_cons_self
  simp [paramScope] at hmem

theorem not_isPending {scopes : List Scope} (h : AllReady scopes) (name : String) :
    isPending scopes name = false := by
  cases scopes with
  | nil => rfl
  | cons scope outer => exact beq_eq_false_iff_ne.2 (h scope List.mem_cons_self name)

/-- A name that is found is ready, unless it is pending in the innermost scope. -/
theorem ready_of_distance? {scopes : List Scope} {name : String} {d : Nat}
    (hout : AllReady scopes.tail) (hp : isPending scopes name = false)
    (h : distance? scopes name = some d) : Ready scopes d name := by
  obtain ⟨hlt, hdeclares, -⟩ := List.findIdx?_eq_some_iff_getElem.1 h
  obtain ⟨ready, hready⟩ := (declares_iff _ _).1 hdeclares
  refine ⟨scopes[d], List.getElem?_eq_getElem hlt, ?_⟩
  suffices hne : List.lookup name scopes[d] ≠ some false by
    cases ready with
    | true => exact hready
    | false => exact absurd hready hne
  cases scopes with
  | nil => cases hlt
  | cons scope outer =>
    cases d with
    | zero => exact beq_eq_false_iff_ne.1 hp
    | succ d => exact hout _ (List.getElem_mem _) name

/-! ## Classes -/

/-- What stands around a place inside a class: its instance, and just outside it the superclass. -/
def Owned : Owner → List Scope → Prop
  | .noClass, _ => True
  | .baseClass, scopes => ∃ d, distance? scopes "this" = some d ∧ Ready scopes d "this"
  | .subclass, scopes =>
    ∃ d, (distance? scopes "this" = some d ∧ Ready scopes d "this") ∧
      distance? scopes "super" = some (d + 1) ∧ Ready scopes (d + 1) "super"

theorem Owned.this {owner : Owner} {scopes : List Scope} (h : Owned owner scopes)
    (hne : owner ≠ .noClass) : ∃ d, distance? scopes "this" = some d ∧ Ready scopes d "this" := by
  cases owner with
  | noClass => exact absurd rfl hne
  | baseClass => exact h
  | subclass =>
    obtain ⟨d, hthis, -⟩ := h
    exact ⟨d, hthis⟩

theorem Owned.enter {owner : Owner} {scopes : List Scope} {name : String} (h : Owned owner scopes)
    (hname : Bindable name) (ready : Bool) : Owned owner (enter name ready scopes) := by
  cases owner with
  | noClass => trivial
  | baseClass =>
    obtain ⟨d, hdistance, hready⟩ := h
    exact ⟨d, by rw [distance?_enter_of_ne hname.1, hdistance], ready_enter_of_ne hname.1 hready⟩
  | subclass =>
    obtain ⟨d, ⟨hthis, hready⟩, hsuper, hready'⟩ := h
    exact ⟨d, ⟨by rw [distance?_enter_of_ne hname.1, hthis], ready_enter_of_ne hname.1 hready⟩,
      by rw [distance?_enter_of_ne hname.2, hsuper], ready_enter_of_ne hname.2 hready'⟩

theorem Owned.cons {owner : Owner} {scopes : List Scope} {scope : Scope} (h : Owned owner scopes)
    (hthis : scope.declares "this" = false) (hsuper : scope.declares "super" = false) :
    Owned owner (scope :: scopes) := by
  cases owner with
  | noClass => trivial
  | baseClass =>
    obtain ⟨d, hdistance, hready⟩ := h
    exact ⟨d + 1, by rw [distance?_cons_of_not_declares hthis, hdistance]; rfl, hready⟩
  | subclass =>
    obtain ⟨d, ⟨hdistance, hready⟩, hdistance', hready'⟩ := h
    exact ⟨d + 1, ⟨by rw [distance?_cons_of_not_declares hthis, hdistance]; rfl, hready⟩,
      by rw [distance?_cons_of_not_declares hsuper, hdistance']; rfl, hready'⟩

theorem owned_classScopes (derived : Bool) (scopes : List Scope) :
    Owned (if derived then .subclass else .baseClass) (classScopes derived scopes) := by
  cases derived with
  | false => exact ⟨0, rfl, _, rfl, rfl⟩
  | true => exact ⟨0, ⟨rfl, _, rfl, rfl⟩, rfl, _, rfl, rfl⟩

theorem allReady_classScopes {scopes : List Scope} (derived : Bool) (h : AllReady scopes) :
    AllReady (classScopes derived scopes) := by
  have hone : ∀ (name other : String), List.lookup other [(name, true)] ≠ some false := by
    intro name other
    rw [List.lookup_cons]
    cases other == name <;> simp
  cases derived with
  | false => exact h.cons (hone _)
  | true => exact (h.cons (hone _)).cons (hone _)

theorem declares_paramScope {params : List Token} {name : String} (h : ∀ t ∈ params, t.lexeme ≠ name) :
    (paramScope params).declares name = false := by
  simpa [Scope.declares, paramScope] using h
end Offside.Binding
