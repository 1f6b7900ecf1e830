/-!
# Steps that may be abandoned

Reading, binding and running are all steps over a state that survives a step which is given up
(`EStateM`).  This file opens such steps once, so that the theories built on them never unfold the monad:

* `Step.bind_of_ok`, `Step.bind_of_error` — what a sequence does once its first step is known;
* `Step.ok_of_bind`, `Step.bind_eq_ok_iff` — a sequence yields a value through both of its steps;
* `Step.error_of_bind` — it is given up in one of them;
* `Step.bind_congr` — sequences do the same if their steps do, from where they start;
* `Step.Ends` — what holds at the end of a step, one condition for a value and one for giving up;
* `Step.Pairs` — what holds at the ends of two steps that go alike;
* `Step.Extends` — steps that only add to a record.
-/

set_option autoImplicit false

namespace Offside.Step

variable {ε σ α β : Type} {p : EStateM ε σ α} {f : α → EStateM ε σ β} {s t u : σ}

theorem bind_of_ok {a : α} (h : p s = .ok a t) : (p >>= f) s = f a t := by
  show (match p s with | .ok a t => f a t | .error e t => .error e t) = f a t
  rw [h]

theorem bind_of_error {e : ε} (h : p s = .error e t) : (p >>= f) s = .error e t := by
  show (match p s with | .ok a t => f a t | .error e t => .error e t) = .error e t
  rw [h]

theorem bind_congr {p' : EStateM ε σ α} {f' : α → EStateM ε σ β} (hp : p s = p' s)
    (hf : ∀ a t, p' s = .ok a t → f a t = f' a t) : (p >>= f) s = (p' >>= f') s := by
  cases h : p' s with
  | ok a t => rw [bind_of_ok (hp.trans h), bind_of_ok h, hf a t h]
  | error e t => rw [bind_of_error (hp.trans h), bind_of_error h]

theorem ok_of_bind {b : β} (h : (p >>= f) s = .ok b u) :
    ∃ a t, p s = .ok a t ∧ f a t = .ok b u := by
  cases hp : p s with
  | ok a t => exact ⟨a, t, rfl, by rw [← h, bind_of_ok hp]⟩
  | error e t => rw [bind_of_error hp] at h; cases h

theorem ok_of_pure {a b : α} (h : (pure a : EStateM ε σ α) s = .ok b t) : a = b ∧ s = t := by
  cases h
  exact ⟨rfl, rfl⟩

theorem bind_eq_ok_iff {b : β} :
    (p >>= f) s = .ok b u ↔ ∃ a t, p s = .ok a t ∧ f a t = .ok b u :=
  ⟨ok_of_bind, fun ⟨_, _, hp, hf⟩ => (bind_of_ok hp).trans hf⟩

/-- A sequence is given up in its first step or in its second. -/
theorem error_of_bind {e : ε} (h : (p >>= f) s = .error e u) :
    p s = .error e u ∨ ∃ a t, p s = .ok a t ∧ f a t = .error e u := by
  cases hp : p s with
  | ok a t => exact Or.inr ⟨a, t, rfl, (bind_of_ok hp).symm.trans h⟩
  | error e' t =>
    cases (bind_of_error hp).symm.trans h
    exact Or.inl rfl

theorem pure_eq_ok_iff {a b : α} : (pure a : EStateM ε σ α) s = .ok b t ↔ a = b ∧ s = t :=
  ⟨ok_of_pure, fun ⟨ha, hs⟩ => ha ▸ hs ▸ rfl⟩

theorem throw_ne_ok {e : ε} {a : α} : (throw e : EStateM ε σ α) s ≠ .ok a t :=
  fun h => nomatch h

theorem ok_of_map {g : α → β} {b : β} (h : (g <$> p) s = .ok b t) :
    ∃ a, p s = .ok a t ∧ g a = b := by
  obtain ⟨a, t', hp, hg⟩ := ok_of_bind (f := fun a => pure (g a)) h
  obtain ⟨rfl, rfl⟩ := ok_of_pure hg
  exact ⟨a, hp, rfl⟩

theorem map_of_ok {g : α → β} {a : α} (h : p s = .ok a t) : (g <$> p) s = .ok (g a) t :=
  bind_of_ok (f := fun a => pure (g a)) h

/-- What holds at the end of a step: `value` if it yields one, `fault` if it is given up. -/
def Ends (r : EStateM.Result ε σ α) (value : α → σ → Prop) (fault : ε → σ → Prop) : Prop :=
  match r with
  | .ok a t => value a t
  | .error e t => fault e t

namespace Ends

variable {value : α → σ → Prop} {next : β → σ → Prop} {fault : ε → σ → Prop}

theorem of_ok {a : α} (h : p s = .ok a t) (ht : value a t) : Ends (p s) value fault := by
  rw [h]
  exact ht

theorem value_of_ok {a : α} (h : Ends (p s) value fault) (hp : p s = .ok a t) : value a t := by
  rw [hp] at h
  exact h

theorem fault_of_error {e : ε} (h : Ends (p s) value fault) (hp : p s = .error e t) : fault e t := by
  rw [hp] at h
  exact h

theorem mono {value' : α → σ → Prop} {fault' : ε → σ → Prop} {r : EStateM.Result ε σ α}
    (h : Ends r value fault) (hv : ∀ a t, value a t → value' a t) (hf : ∀ e t, fault e t → fault' e t) :
    Ends r value' fault' := by
  cases r with
  | ok a t => exact hv a t h
  | error e t => exact hf e t h

/-- A sequence ends well if its first step does and its second does from wherever the first one ends. -/
theorem bind (hp : Ends (p s) value fault) (hf : ∀ a t, value a t → Ends (f a t) next fault) :
    Ends ((p >>= f) s) next fault := by
  cases h : p s with
  | ok a t =>
    rw [bind_of_ok h]
    exact hf a t (hp.value_of_ok h)
  | error e t =>
    rw [bind_of_error h]
    exact hp.fault_of_error h

end Ends

/-! ## Two steps side by side -/

section Pairs

variable {τ γ δ : Type}

/-- Two steps go alike: both yield values, which satisfy `value` together with the states, or both are given
up for the same reason, and the states satisfy `fault`. -/
def Pairs (value : α → σ → γ → τ → Prop) (fault : σ → τ → Prop) :
    EStateM.Result ε σ α → EStateM.Result ε τ γ → Prop
  | .ok a s, .ok c t => value a s c t
  | .error e s, .error e' t => e = e' ∧ fault s t
  | _, _ => False

namespace Pairs

variable {value : α → σ → γ → τ → Prop} {fault : σ → τ → Prop} {next : β → σ → δ → τ → Prop}
  {q : EStateM ε τ γ} {g : γ → EStateM ε τ δ} {t : τ}

theorem mono {value' : α → σ → γ → τ → Prop} {fault' : σ → τ → Prop} {r : EStateM.Result ε σ α}
    {r' : EStateM.Result ε τ γ} (h : Pairs value fault r r')
    (hv : ∀ a s c t, value a s c t → value' a s c t) (hf : ∀ s t, fault s t → fault' s t) :
    Pairs value' fault' r r' := by
  cases r with
  | ok a s =>
    cases r' with
    | ok c t => exact hv a s c t h
    | error e t => exact h
  | error e s =>
    cases r' with
    | ok c t => exact h
    | error e' t => exact ⟨h.1, hf s t h.2⟩

/-- Sequences go alike if their first steps do, and their second ones from wherever the first ones end. -/
theorem bind (hp : Pairs value fault (p s) (q t))
    (hf : ∀ a s' c t', value a s' c t' → Pairs next fault (f a s') (g c t')) :
    Pairs next fault ((p >>= f) s) ((q >>= g) t) := by
  cases hps : p s with
  | ok a s' =>
    cases hqt : q t with
    | ok c t' =>
      rw [hps, hqt] at hp
      rw [bind_of_ok hps, bind_of_ok hqt]
      exact hf a s' c t' hp
    | error e t' =>
      rw [hps, hqt] at hp
      exact absurd hp id
  | error e s' =>
    cases hqt : q t with
    | ok c t' =>
      rw [hps, hqt] at hp
      exact absurd hp id
    | error e' t' =>
      rw [hps, hqt] at hp
      rw [bind_of_error hps, bind_of_error hqt]
      exact hp

end Pairs

end Pairs

/-! ## Records -/

section Records

variable {γ : Type} {record : σ → List γ}

/-- Behind the step, what it has added to the record stands behind what was there before, however the step ends. -/
def Extends (record : σ → List γ) (p : EStateM ε σ α) : Prop :=
  ∀ s, Ends (p s) (fun _ t => record s <+: record t) (fun _ t => record s <+: record t)

theorem extends_pure (a : α) : Extends record (pure a : EStateM ε σ α) :=
  fun _ => List.prefix_rfl

theorem extends_throw (e : ε) : Extends record (throw e : EStateM ε σ α) :=
  fun _ => List.prefix_rfl

theorem Extends.bind (hp : Extends record p) (hf : ∀ a, Extends record (f a)) : Extends record (p >>= f) :=
  fun s => (hp s).bind fun a t hmore =>
    (hf a t).mono (fun _ _ hmore' => hmore.trans hmore') fun _ _ hmore' => hmore.trans hmore'

theorem Extends.map (g : α → β) (hp : Extends record p) : Extends record (g <$> p) :=
  hp.bind fun a => extends_pure (g a)

end Records

end Offside.Step
