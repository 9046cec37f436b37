import Mathlib.Tactic.Common

/-!
# Computations over a state that may raise

What a computation wrote before it raised stays written, as in an imperative program whose
caller catches the exception. `Keeps P m` says that `m` keeps the state in `P` whether it returns
or raises: its rules carry an invariant through a body without a case for each raise.
-/

namespace Dsl41.Infra

universe u
variable {ε σ α β : Type u}

/-- A computation over the state `σ` that may raise an `ε`. -/
abbrev Effect (ε σ α : Type u) : Type u := ExceptT ε (StateM σ) α

namespace Effect

/-- What the computation returns or raises from a state. -/
def result (m : Effect ε σ α) (s : σ) : Except ε α := (StateT.run (ExceptT.run m) s).1

/-- The state it leaves, raising or not. -/
def after (m : Effect ε σ α) (s : σ) : σ := (StateT.run (ExceptT.run m) s).2

section Runs

variable (a : α) (e : ε) (s : σ) (f : σ → σ)

@[simp] theorem result_pure : result (pure a : Effect ε σ α) s = .ok a := rfl

@[simp] theorem after_pure : after (pure a : Effect ε σ α) s = s := rfl

@[simp] theorem result_throw : result (throw e : Effect ε σ α) s = .error e := rfl

@[simp] theorem after_throw : after (throw e : Effect ε σ α) s = s := rfl

@[simp] theorem result_get : result (get : Effect ε σ σ) s = .ok s := rfl

@[simp] theorem after_get : after (get : Effect ε σ σ) s = s := rfl

@[simp] theorem result_modify : result (modify f : Effect ε σ PUnit) s = .ok ⟨⟩ := rfl

@[simp] theorem after_modify : after (modify f : Effect ε σ PUnit) s = f s := rfl

/-- A value or an error that no state has a part in. -/
def ofExcept (x : Except ε α) : Effect ε σ α := ExceptT.mk (pure x)

@[simp] theorem result_ofExcept (x : Except ε α) : result (ofExcept x : Effect ε σ α) s = x := rfl

@[simp] theorem after_ofExcept (x : Except ε α) : after (ofExcept x : Effect ε σ α) s = s := rfl

/-- What a reading of the state gives; nothing is written. -/
def asks (f : σ → Except ε α) : Effect ε σ α := ExceptT.mk fun s => (f s, s)

@[simp] theorem result_asks (f : σ → Except ε α) : (asks f).result s = f s := rfl

@[simp] theorem after_asks (f : σ → Except ε α) : (asks f).after s = s := rfl

variable (m : Effect ε σ α) (g : α → Effect ε σ β)

/-- All of a computation or, when it raises, nothing of it. -/
def atomically : Effect ε σ α := ExceptT.mk fun s => (m.result s,
  match m.result s with
  | .ok _ => m.after s
  | .error _ => s)

@[simp] theorem result_atomically : m.atomically.result s = m.result s := rfl

theorem after_atomically : m.atomically.after s =
    match m.result s with
    | .ok _ => m.after s
    | .error _ => s := rfl

/-- The errors of a computation through a function. -/
def mapError (f : ε → ε) : Effect ε σ α := ExceptT.mk fun s => ((m.result s).mapError f, m.after s)

@[simp] theorem result_mapError (f : ε → ε) : (m.mapError f).result s = (m.result s).mapError f := rfl

@[simp] theorem after_mapError (f : ε → ε) : (m.mapError f).after s = m.after s := rfl

/-- What `f` writes at the end is written whether the computation returns or raises. -/
def ensuring (f : σ → σ) : Effect ε σ α := ExceptT.mk fun s => (m.result s, f (m.after s))

@[simp] theorem result_ensuring (f : σ → σ) : (m.ensuring f).result s = m.result s := rfl

@[simp] theorem after_ensuring (f : σ → σ) : (m.ensuring f).after s = f (m.after s) := rfl

theorem result_bind : result (m >>= g) s =
    match m.result s with
    | .ok a => (g a).result (m.after s)
    | .error e => .error e := by
  show (ExceptT.bindCont g (m.result s) (m.after s)).1 = _
  cases m.result s with
  | error e => rfl
  | ok a => rfl

theorem after_bind : after (m >>= g) s =
    match m.result s with
    | .ok a => (g a).after (m.after s)
    | .error _ => m.after s := by
  show (ExceptT.bindCont g (m.result s) (m.after s)).2 = _
  cases m.result s with
  | error e => rfl
  | ok a => rfl

theorem after_bind_pure (h : α → β) : after (m >>= fun a => pure (h a)) s = m.after s := by
  rw [after_bind]
  split
  · rfl
  · rfl

variable {m g s}

theorem after_discard : (discard m).after s = m.after s := after_bind_pure _ _ fun _ => PUnit.unit

theorem result_discard {a : α} (h : m.result s = .ok a) : (discard m).result s = .ok PUnit.unit := by
  show (m >>= fun _ => pure PUnit.unit).result s = _
  rw [result_bind, h]
  rfl

theorem raises_discard {e : ε} (h : m.result s = .error e) : (discard m).result s = .error e := by
  show (m >>= fun _ => pure PUnit.unit).result s = _
  rw [result_bind, h]

/-- A bind that returns splits into its two halves. -/
theorem bind_result_ok {b : β} (h : (m >>= g).result s = .ok b) :
    ∃ a, m.result s = .ok a ∧ (g a).result (m.after s) = .ok b ∧
      (m >>= g).after s = (g a).after (m.after s) := by
  rw [result_bind] at h
  rw [after_bind]
  cases hm : m.result s with
  | error e =>
    rw [hm] at h
    cases h
  | ok a =>
    rw [hm] at h
    exact ⟨a, rfl, h, rfl⟩

end Runs

/-! ## Invariants -/

variable {P : σ → Prop}

/-- Whether it returns or raises, the computation leaves a state in `P` if it met one. -/
def Keeps (P : σ → Prop) (m : Effect ε σ α) : Prop := ∀ s, P s → P (m.after s)

theorem keeps_pure (a : α) : Keeps P (pure a : Effect ε σ α) := fun _ h => h

theorem keeps_throw (e : ε) : Keeps P (throw e : Effect ε σ α) := fun _ h => h

theorem keeps_get : Keeps P (get : Effect ε σ σ) := fun _ h => h

theorem keeps_modify {f : σ → σ} (hf : ∀ s, P s → P (f s)) :
    Keeps P (modify f : Effect ε σ PUnit) := hf

theorem Keeps.bind {m : Effect ε σ α} {g : α → Effect ε σ β} (hm : Keeps P m)
    (hg : ∀ a, Keeps P (g a)) : Keeps P (m >>= g) := by
  intro s hs
  rw [after_bind]
  cases m.result s with
  | error e => exact hm s hs
  | ok a => exact hg a _ (hm s hs)

/-- The read state is the state the rest runs from. -/
theorem keeps_get_bind {g : σ → Effect ε σ β} (h : ∀ s, P s → P ((g s).after s)) :
    Keeps P (get >>= g) := h

/-- What comes after a computation that raises does not run. -/
theorem keeps_bind_of_raises {m : Effect ε σ α} {g : α → Effect ε σ β}
    (hr : ∀ s, P s → ∃ e, m.result s = .error e) (hm : Keeps P m) : Keeps P (m >>= g) := by
  intro s hs
  obtain ⟨e, he⟩ := hr s hs
  rw [after_bind, he]
  exact hm s hs

/-! ## How a computation ends -/

/-- From this state the computation returns in `P` or raises in `Q`. -/
def Ends (m : Effect ε σ α) (s : σ) (P Q : σ → Prop) : Prop :=
  match m.result s with
  | .ok _ => P (m.after s)
  | .error _ => Q (m.after s)

section Ends

variable {s : σ} {Q R : σ → Prop}

theorem ends_pure {a : α} (h : P s) : Ends (pure a : Effect ε σ α) s P Q := h

theorem ends_throw {e : ε} (h : Q s) : Ends (throw e : Effect ε σ α) s P Q := h

theorem ends_modify {f : σ → σ} (h : P (f s)) : Ends (modify f : Effect ε σ PUnit) s P Q := h

theorem ends_get_bind {g : σ → Effect ε σ β} (h : Ends (g s) s P Q) : Ends (get >>= g) s P Q := h

theorem Ends.mono {m : Effect ε σ α} (h : Ends m s R Q) (himp : ∀ t, R t → P t) : Ends m s P Q := by
  unfold Ends at h ⊢
  split
  · next hresult =>
    rw [hresult] at h
    exact himp _ h
  · next hresult =>
    rw [hresult] at h
    exact h

theorem Ends.bind {m : Effect ε σ α} {g : α → Effect ε σ β} (hm : Ends m s R Q)
    (hg : ∀ a, m.result s = .ok a → R (m.after s) → Ends (g a) (m.after s) P Q) : Ends (m >>= g) s P Q := by
  unfold Ends at hm ⊢
  rw [result_bind, after_bind]
  cases hresult : m.result s with
  | error e =>
    rw [hresult] at hm
    exact hm
  | ok a =>
    rw [hresult] at hm
    exact hg a hresult hm

end Ends

/-- From this state the computation returns this answer, in `P`. -/
def Returns (m : Effect ε σ α) (s : σ) (a : α) (P : σ → Prop) : Prop := m.result s = .ok a ∧ P (m.after s)

section Returns

variable {s : σ} {Q : σ → Prop}

theorem returns_pure {a : α} (h : P s) : Returns (pure a : Effect ε σ α) s a P := ⟨rfl, h⟩

theorem returns_modify {f : σ → σ} (h : P (f s)) : Returns (modify f : Effect ε σ PUnit) s .unit P := ⟨rfl, h⟩

theorem returns_get_bind {g : σ → Effect ε σ β} {b : β} (h : Returns (g s) s b P) : Returns (get >>= g) s b P := h

theorem Returns.mono {m : Effect ε σ α} {a : α} (h : Returns m s a Q) (himp : ∀ t, Q t → P t) : Returns m s a P :=
  ⟨h.1, himp _ h.2⟩

theorem Returns.ensuring {m : Effect ε σ α} {a : α} {f : σ → σ} (h : Returns m s a Q) (hf : ∀ t, Q t → P (f t)) :
    Returns (m.ensuring f) s a P := ⟨h.1, hf _ h.2⟩

theorem Returns.bind {m : Effect ε σ α} {g : α → Effect ε σ β} {a : α} {b : β} (hm : Returns m s a Q)
    (hg : ∀ t, Q t → Returns (g a) t b P) : Returns (m >>= g) s b P := by
  have hnext := hg _ hm.2
  constructor
  · rw [result_bind, hm.1]
    exact hnext.1
  · rw [after_bind, hm.1]
    exact hnext.2

end Returns

/-! ## Two runs side by side -/

variable {R : σ → σ → Prop}

/-- From related states the two return or raise the same and leave related states. -/
def Couples (R : σ → σ → Prop) (m n : Effect ε σ α) : Prop :=
  ∀ s t, R s t → m.result s = n.result t ∧ R (m.after s) (n.after t)

theorem couples_pure (a : α) : Couples R (pure a : Effect ε σ α) (pure a) := fun _ _ h => ⟨rfl, h⟩

theorem couples_asks {f : σ → Except ε α} (hf : ∀ s t, R s t → f s = f t) :
    Couples R (asks f) (asks f) := fun s t h => ⟨hf s t h, h⟩

theorem couples_ofExcept (x : Except ε α) : Couples R (ofExcept x : Effect ε σ α) (ofExcept x) :=
  fun _ _ h => ⟨rfl, h⟩

theorem couples_modify {f g : σ → σ} (hf : ∀ s t, R s t → R (f s) (g t)) :
    Couples R (modify f : Effect ε σ PUnit) (modify g) := fun s t h => ⟨rfl, hf s t h⟩

theorem Couples.bind {m n : Effect ε σ α} {g h : α → Effect ε σ β} (hm : Couples R m n)
    (hg : ∀ a, Couples R (g a) (h a)) : Couples R (m >>= g) (n >>= h) := by
  intro s t hst
  obtain ⟨hresult, hafter⟩ := hm s t hst
  rw [result_bind, result_bind, after_bind, after_bind, ← hresult]
  cases m.result s with
  | error e => exact ⟨rfl, hafter⟩
  | ok a => exact hg a _ _ hafter

end Effect

end Dsl41.Infra
