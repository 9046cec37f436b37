import Mathlib.Data.List.Forall2

/-!
# Computations that may raise

Inversion lemmas for `Except` and `Option`: a bind that succeeds splits into its two halves, and
a loop over a list succeeds exactly when each of its steps does.
-/

namespace Dsl41.Infra

universe u v
variable {ε : Type u} {α β : Type v}

theorem bind_eq_ok {x : Except ε α} {f : α → Except ε β} {b : β} :
    x >>= f = .ok b ↔ ∃ a, x = .ok a ∧ f a = .ok b := by
  cases x with
  | error e => simp [bind, Except.bind]
  | ok a => simp [bind, Except.bind]

theorem ok_bind {a : α} {f : α → Except ε β} : (Except.ok a >>= f) = f a := rfl

theorem bind_eq_error {x : Except ε α} {f : α → Except ε β} {e : ε} :
    x >>= f = .error e ↔ x = .error e ∨ ∃ a, x = .ok a ∧ f a = .error e := by
  cases x with
  | error e' => simp [bind, Except.bind]
  | ok a => simp [bind, Except.bind]

theorem map_eq_ok {x : Except ε α} {f : α → β} {b : β} :
    f <$> x = .ok b ↔ ∃ a, x = .ok a ∧ f a = b := by
  cases x with
  | error e => simp [Functor.map, Except.map]
  | ok a => simp [Functor.map, Except.map]

instance decidableEqOk [DecidableEq α] (a : α) : ∀ x : Except ε α, Decidable (x = .ok a)
  | .ok b => decidable_of_iff (b = a) ⟨congrArg Except.ok, Except.ok.inj⟩
  | .error _ => isFalse (nomatch ·)

/-- What passes a test was returned. -/
theorem exists_of_any {x : Except ε α} {p : α → Bool} (h : x.toOption.any p = true) :
    ∃ a, x = .ok a ∧ p a = true := by
  cases x with
  | ok a => exact ⟨a, rfl, h⟩
  | error e => cases h

theorem pure_eq_ok {a b : α} : (pure a : Except ε α) = .ok b ↔ a = b := by
  simp [pure, Except.pure]

/-- A loop whose steps all succeed succeeds, with the results in step order. -/
theorem mapM_ok {f : α → Except ε β} {P : α → β → Prop} : ∀ {l : List α},
    (∀ a ∈ l, ∃ b, f a = .ok b ∧ P a b) → ∃ bs, l.mapM f = .ok bs ∧ List.Forall₂ P l bs
  | [], _ => ⟨[], by simp [pure, Except.pure], List.Forall₂.nil⟩
  | a :: l, h => by
    obtain ⟨b, hb, hp⟩ := h a List.mem_cons_self
    obtain ⟨bs, hbs, hps⟩ := mapM_ok (l := l) fun x hx => h x (List.mem_cons_of_mem _ hx)
    refine ⟨b :: bs, ?_, List.Forall₂.cons hp hps⟩
    rw [List.mapM_cons, hb, hbs]
    rfl

theorem mapM_inv {f : α → Except ε β} : ∀ {l : List α} {bs : List β},
    l.mapM f = .ok bs → List.Forall₂ (fun a b => f a = .ok b) l bs
  | [], bs, h => by
    rw [List.mapM_nil, pure_eq_ok] at h
    exact h ▸ List.Forall₂.nil
  | a :: l, bs, h => by
    rw [List.mapM_cons, bind_eq_ok] at h
    obtain ⟨b, hb, h⟩ := h
    obtain ⟨cs, hcs, h⟩ := bind_eq_ok.mp h
    rw [pure_eq_ok] at h
    exact h ▸ List.Forall₂.cons hb (mapM_inv hcs)

theorem mapM_eq_ok {f : α → Except ε β} {l : List α} {bs : List β} :
    l.mapM f = .ok bs ↔ List.Forall₂ (fun a b => f a = .ok b) l bs := by
  refine ⟨mapM_inv, fun h => ?_⟩
  induction h with
  | nil => rfl
  | cons hstep _ ih =>
    rw [List.mapM_cons, hstep, ih]
    rfl

/-- A loop that keeps what each step was taken at. -/
theorem mapM_pair {f : α → Except ε β} {l : List α} {bs : List (α × β)}
    (h : l.mapM (fun a => do return (a, ← f a)) = .ok bs) :
    bs.map Prod.fst = l ∧ ∀ e ∈ bs, f e.1 = .ok e.2 := by
  have hpairs := mapM_inv h
  clear h
  induction hpairs with
  | nil => exact ⟨rfl, fun e he => absurd he List.not_mem_nil⟩
  | cons hstep _ ih =>
    obtain ⟨b, hb, hpair⟩ := bind_eq_ok.mp hstep
    rw [pure_eq_ok] at hpair
    subst hpair
    refine ⟨by rw [List.map_cons, ih.1], fun e he => ?_⟩
    rcases List.mem_cons.mp he with rfl | he
    · exact hb
    · exact ih.2 e he

/-- A loop whose steps all succeed with known results. -/
theorem mapM_eq_map {f : α → Except ε β} {g : α → β} : ∀ {l : List α},
    (∀ a ∈ l, f a = .ok (g a)) → l.mapM f = .ok (l.map g)
  | [], _ => rfl
  | a :: l, h => by
    rw [List.mapM_cons, h a List.mem_cons_self, mapM_eq_map fun b hb => h b (List.mem_cons_of_mem _ hb)]
    rfl

/-- Each result of a loop is a step's. -/
theorem mem_of_mapM {f : α → Except ε β} {l : List α} {bs : List β} (h : l.mapM f = .ok bs) {b : β}
    (hb : b ∈ bs) : ∃ a ∈ l, f a = .ok b := by
  have hpairs := mapM_inv h
  clear h
  induction hpairs with
  | nil => cases hb
  | cons hstep _ ih =>
    rcases List.mem_cons.mp hb with rfl | hb
    · exact ⟨_, List.mem_cons_self, hstep⟩
    · obtain ⟨a, ha, hab⟩ := ih hb
      exact ⟨a, List.mem_cons_of_mem _ ha, hab⟩

/-- Each step of a loop that succeeds does. -/
theorem ok_of_mapM {f : α → Except ε β} {l : List α} {bs : List β} (h : l.mapM f = .ok bs) {a : α}
    (ha : a ∈ l) : ∃ b, f a = .ok b := by
  have hpairs := mapM_inv h
  clear h
  induction hpairs with
  | nil => cases ha
  | cons hstep _ ih =>
    rcases List.mem_cons.mp ha with rfl | ha
    · exact ⟨_, hstep⟩
    · exact ih ha

/-- What every step of a fold keeps holds of its result. -/
theorem foldlM_inv {f : β → α → Except ε β} {P : β → Prop}
    (step : ∀ b a b', P b → f b a = .ok b' → P b') : ∀ {l : List α} {b b' : β},
    P b → l.foldlM f b = .ok b' → P b'
  | [], b, b', hb, h => by
    rw [List.foldlM_nil, pure_eq_ok] at h
    exact h ▸ hb
  | a :: l, b, b', hb, h => by
    rw [List.foldlM_cons, bind_eq_ok] at h
    obtain ⟨c, hc, h⟩ := h
    exact foldlM_inv step (step b a c hb hc) h

theorem foldlM_error {f : β → α → Except ε β} {e : ε} : ∀ {l : List α} {b : β},
    l.foldlM f b = .error e → ∃ c, ∃ a ∈ l, f c a = .error e
  | [], b, h => by cases h
  | a :: l, b, h => by
    rw [List.foldlM_cons, bind_eq_error] at h
    rcases h with h | ⟨c, -, h⟩
    · exact ⟨b, a, List.mem_cons_self, h⟩
    · obtain ⟨d, x, hx, h⟩ := foldlM_error h
      exact ⟨d, x, List.mem_cons_of_mem _ hx, h⟩

theorem foldlM_congr {f g : β → α → Except ε β} : ∀ {l : List α} {b : β},
    (∀ b, ∀ a ∈ l, f b a = g b a) → l.foldlM f b = l.foldlM g b
  | [], _, _ => rfl
  | a :: l, b, h => by
    rw [List.foldlM_cons, List.foldlM_cons, h b a List.mem_cons_self]
    congr 1
    funext c
    exact foldlM_congr fun b' a' ha' => h b' a' (List.mem_cons_of_mem _ ha')

/-- A loop with a step that always fails fails. -/
theorem foldlM_fails {f : β → α → Except ε β} {a : α} (hfail : ∀ b, ∃ e, f b a = .error e) :
    ∀ {l : List α} {b : β}, a ∈ l → ∃ e, l.foldlM f b = .error e
  | x :: l, b, ha => by
    rw [List.foldlM_cons]
    cases hx : f b x with
    | error e => exact ⟨e, rfl⟩
    | ok c =>
      rcases List.mem_cons.mp ha with rfl | ha
      · obtain ⟨e, he⟩ := hfail b
        rw [hx] at he
        cases he
      · exact foldlM_fails hfail ha

theorem mapM_eq_some {f : α → Option β} : ∀ {l : List α} {bs : List β},
    l.mapM f = some bs ↔ List.Forall₂ (fun a b => f a = some b) l bs
  | [], bs => by simp [eq_comm]
  | a :: l, bs => by
    rw [List.mapM_cons, List.forall₂_cons_left_iff]
    simp only [Option.bind_eq_bind, Option.bind_eq_some_iff, mapM_eq_some, Option.pure_def,
      Option.some.injEq]
    constructor
    · rintro ⟨b, hb, cs, hcs, rfl⟩
      exact ⟨b, cs, hb, hcs, rfl⟩
    · rintro ⟨b, cs, hb, hcs, rfl⟩
      exact ⟨b, hb, cs, hcs, rfl⟩

theorem exists_mapM_eq_some {f : α → Option β} : ∀ {l : List α},
    (∀ a ∈ l, ∃ b, f a = some b) → ∃ bs, l.mapM f = some bs
  | [], _ => ⟨[], rfl⟩
  | a :: l, h => by
    obtain ⟨b, hb⟩ := h a List.mem_cons_self
    obtain ⟨bs, hbs⟩ := exists_mapM_eq_some (l := l) fun x hx => h x (List.mem_cons_of_mem _ hx)
    exact ⟨b :: bs, by simp [List.mapM_cons, hb, hbs]⟩

end Dsl41.Infra
