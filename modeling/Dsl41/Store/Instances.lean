import Dsl41.Store.Writes

/-!
# The owner's instances

The state owner keeps an instance for each row, and the tier's chart moves it. A verb of an input
builds its writes from four parts (`Parts`), none of which moves an instance: a new row gets the
instance its row gives, and every other instance stays (`Grown`).
-/

namespace Dsl41.Store

open Dsl41.Infra Dsl41.Infra.Effect
open RuntimeState

variable {τ ω : Type} [LinearOrder τ] {s s' s₀ : RuntimeState τ ω} {job : String} {P : RuntimeState τ ω → Prop}

/-! ## The parts of a verb -/

/-- A change of neither the rows nor the instances. -/
def Aside (g : RuntimeState τ ω → RuntimeState τ ω) : Prop :=
  ∀ s, (g s).jobs = s.jobs ∧ (g s).instances = s.instances ∧ (g s).jobInstance = s.jobInstance

/-- The parts of a verb keep the predicate. -/
structure Parts (P : RuntimeState τ ω → Prop) : Prop where
  runtime : ∀ job, Keeps P (RuntimeState.runtime job)
  replace : ∀ job f, Keeps P (RuntimeState.replace job f)
  aside : ∀ g, Aside g → Keeps P (modify g : RuntimeM τ ω _)

/-- The verb moves the instances themselves. -/
def Verb.movesInstances : Verb τ ω → Bool
  | .moveInstance .. | .restoreInstances => true
  | _ => false

section Parts

variable (hP : Parts P)

include hP

theorem Parts.touch (e : Entity) : Keeps P (RuntimeState.touch e) := by
  refine hP.aside _ fun s => ?_
  split
  · exact ⟨rfl, rfl, rfl⟩
  · exact ⟨rfl, rfl, rfl⟩

theorem Parts.touchJob (owner : Option String) : Keeps P (RuntimeState.touchJob owner) := by
  cases owner with
  | none => exact keeps_pure _
  | some job => exact hP.touch _

theorem Parts.assemble (event : AssemblyEvent) : Keeps P (RuntimeState.assemble event) := by
  refine keeps_get.bind fun s => ?_
  split
  · exact hP.aside _ fun _ => ⟨rfl, rfl, rfl⟩
  · exact keeps_throw _

theorem Parts.release (job : String) (status : JobStatus) (keepsHeld : Option (String → Bool)) :
    Keeps P (releaseReservations job status keepsHeld) := by
  refine (hP.runtime job).bind fun row => ?_
  dsimp only
  split
  · exact (hP.replace _ _).bind fun _ => hP.aside _ fun _ => ⟨rfl, rfl, rfl⟩
  · exact keeps_pure _

/-- **A verb of an input that moves no instance keeps what its parts keep.** -/
theorem Parts.verb {v : Verb τ ω} (hv : v.ofInput) (hm : v.movesInstances = false) : Keeps P v.call := by
  have hreplace : ∀ {job f}, Keeps P (RuntimeState.replace job f) := hP.replace _ _
  have hruntime : ∀ {job}, Keeps P (RuntimeState.runtime job) := hP.runtime _
  cases v with
  | runtime job => exact hruntime.bind fun _ => keeps_pure _
  | transition | moveFlag | clearExitCode | seedJob | dequeueWaiter => exact hreplace
  | startRun j cause box isBox =>
    have hreset : Keeps P (if isBox then resetBox j else pure () : RuntimeM τ ω Unit) := by
      split
      · exact hreplace
      · exact keeps_pure _
    refine hreplace.bind fun _ => hruntime.bind fun _ => keeps_get.bind fun _ => hreplace.bind fun _ => ?_
    cases box with
    | none => exact hreset
    | some box => exact (hruntime.bind fun _ => hreplace).bind fun _ => hreset
  | recordResolution | recordIcedOut => exact hruntime.bind fun _ => hreplace
  | voidResolution =>
    refine hruntime.bind fun row => ?_
    dsimp only
    split
    · exact hreplace
    · exact keeps_pure _
  | setGlobal => exact (hP.touch _).bind fun _ => hP.aside _ fun _ => ⟨rfl, rfl, rfl⟩
  | reserve | takeOverHeld =>
    refine hruntime.bind fun row => ?_
    dsimp only
    split
    · exact (keeps_throw _).bind fun _ => hreplace
    · exact hreplace
  | releaseHeld =>
    refine Keeps.bind (hruntime.bind fun row => ?_) fun _ => keeps_pure _
    dsimp only
    split
    · exact (keeps_throw _).bind fun _ => hreplace.bind fun _ => keeps_pure _
    · exact hreplace.bind fun _ => keeps_pure _
  | enqueueWaiter =>
    refine hruntime.bind fun row => ?_
    dsimp only
    split
    · exact keeps_get.bind fun _ => hreplace.bind fun _ => hP.aside _ fun _ => ⟨rfl, rfl, rfl⟩
    · exact keeps_pure _
  | enqueueTimer =>
    refine Keeps.bind ((hP.touchJob _).bind fun _ => Keeps.bind (hP.aside _ ?_) fun _ =>
      keeps_get.bind fun _ => keeps_pure _) fun _ => keeps_pure _
    exact fun _ => ⟨rfl, rfl, rfl⟩
  | popTimerDue at_ =>
    refine Keeps.bind (keeps_get.bind fun s => ?_) fun _ => keeps_pure _
    split
    · exact keeps_pure _
    · split
      · exact keeps_pure _
      · refine (hP.touchJob _).bind fun _ => Keeps.bind (hP.aside _ ?_) fun _ => keeps_pure _
        exact fun _ => ⟨rfl, rfl, rfl⟩
  | beginInput => exact (hP.assemble _).bind fun _ => hP.aside _ fun _ => ⟨rfl, rfl, rfl⟩
  | restoreInstances | moveInstance => cases hm
  | releaseReservations | seedConsumed | retireJob | admitJob | install | keepJobInstances
  | finishGenesis | seedPeriod => cases hv

theorem Parts.commit : Keeps P commitInput := by
  have hbump : ∀ e : Entity, Keeps P (bump e) := by
    intro e
    cases e with
    | job name => exact (hP.runtime _).bind fun _ => hP.replace _ _
    | global name =>
      refine keeps_get.bind fun s => ?_
      split
      · exact keeps_throw _
      · exact hP.aside _ fun _ => ⟨rfl, rfl, rfl⟩
  have hall : ∀ l : List Entity, Keeps P (bumpAll l) := by
    intro l
    induction l with
    | nil => exact keeps_pure _
    | cons e l ih => exact (hbump e).bind fun _ => ih
  refine (hP.assemble _).bind fun _ => keeps_get.bind fun s => ?_
  refine Keeps.bind (hP.aside _ ?_) fun _ => (keeps_raiseIf_of _).bind fun _ => ?_
  · exact fun _ => ⟨rfl, rfl, rfl⟩
  · exact (hall _).bind fun _ => keeps_get.bind fun _ => (keeps_raiseIf_of _).bind fun _ => keeps_pure _

end Parts

/-! ## What gives a row its instance -/

/-- What gives a row its instance stays. -/
def Gives (f : Option (JobInstance τ)) (s : RuntimeState τ ω) : Prop := s.jobInstance = f

theorem parts_gives (f : Option (JobInstance τ)) : Parts (Gives f : RuntimeState τ ω → Prop) := by
  have haside : ∀ g : RuntimeState τ ω → RuntimeState τ ω, (∀ s, (g s).jobInstance = s.jobInstance) →
      Keeps (Gives f) (modify g : RuntimeM τ ω _) := fun g hg => keeps_modify fun s hs => (hg s).trans hs
  have hruntime : ∀ job, Keeps (Gives f) (runtime job : RuntimeM τ ω _) := by
    intro job
    have hrow : Keeps (Gives f) (restoreRow job {} : RuntimeM τ ω _) := by
      refine keeps_get.bind fun s => ?_
      split
      · exact keeps_pure _
      · split
        · exact haside _ fun _ => rfl
        · exact keeps_throw _
    refine keeps_get.bind fun s => ?_
    dsimp only
    split
    · -- the raise is all of it
      exact keeps_throw _
    · split
      · exact keeps_pure _
      · refine Keeps.bind (haside _ ?_) fun _ => hrow.bind fun _ => keeps_pure _
        exact fun _ => rfl
  have htouch : ∀ e, Keeps (Gives f) (touch e : RuntimeM τ ω _) := by
    intro e
    refine haside _ fun s => ?_
    split
    · rfl
    · rfl
  exact {
    runtime := hruntime
    replace := fun job _ => (htouch _).bind fun _ => (hruntime job).bind fun _ => haside _ fun _ => rfl
    aside := fun g hg => haside g fun s => (hg s).2.2 }

/-- **No verb of an input changes what gives a row its instance.** -/
theorem Verb.keeps_gives {f : Option (JobInstance τ)} {v : Verb τ ω} (hv : v.ofInput) : Keeps (Gives f) v.call := by
  cases hm : v.movesInstances with
  | false => exact (parts_gives f).verb hv hm
  | true =>
    have hinstances : ∀ g : RuntimeState τ ω → String → Option (Finset StateMachine.Name),
        Keeps (Gives f) (modify fun s => { s with instances := g s } : RuntimeM τ ω _) :=
      fun g => keeps_modify fun _ hs => hs
    cases v with
    | moveInstance => exact hinstances _
    | restoreInstances =>
      refine keeps_get.bind fun s => ?_
      split
      · exact hinstances _
      · split
        · exact hinstances _
        · exact keeps_throw _
    | _ => cases hm

/-! ## The instances of new rows -/

/-- The instances of a store are those of another, and each new one is of a new row. -/
structure Grown (s s' : RuntimeState τ ω) : Prop where
  gives : s'.jobInstance = s.jobInstance
  kept : ∀ x active, s.instances x = some active → s'.instances x = some active
  fresh : ∀ x active, s'.instances x = some active → s.instances x = some active ∨
    s.jobs.get? x = none ∧ ∃ f, s.jobInstance = some f ∧ f x {} = .ok active
  rows : ∀ x, (s.jobs.get? x).isSome → (s'.jobs.get? x).isSome
  held : ∀ f, s.jobInstance = some f → (∀ job row, ∃ active, f job row = .ok active) →
    (∀ x, (s.jobs.get? x).isSome → (s.instances x).isSome) → ∀ x, (s'.jobs.get? x).isSome → (s'.instances x).isSome

theorem Grown.refl (s : RuntimeState τ ω) : Grown s s :=
  ⟨rfl, fun _ _ h => h, fun _ _ h => Or.inl h, fun _ h => h, fun _ _ _ h => h⟩

theorem Grown.trans {s'' : RuntimeState τ ω} (h : Grown s s') (h' : Grown s' s'') : Grown s s'' where
  gives := h'.gives.trans h.gives
  kept x active hx := h'.kept x active (h.kept x active hx)
  fresh x active hx := by
    rcases h'.fresh x active hx with hx | ⟨hnone, f, hf, hactive⟩
    · exact h.fresh x active hx
    · refine Or.inr ⟨?_, f, h.gives ▸ hf, hactive⟩
      cases hrow : s.jobs.get? x with
      | none => rfl
      | some row =>
        have hsome := h.rows x (by simp [hrow])
        rw [hnone] at hsome
        cases hsome
  rows x hx := h'.rows x (h.rows x hx)
  held f hf htotal hs := h'.held f (h.gives ▸ hf) htotal (h.held f hf htotal hs)

theorem grown_aside {g : RuntimeState τ ω → RuntimeState τ ω} (hg : Aside g) (s : RuntimeState τ ω) :
    Grown s (g s) := by
  obtain ⟨hjobs, hinstances, hgives⟩ := hg s
  exact ⟨hgives, fun x a h => hinstances ▸ h, fun x a h => Or.inl (hinstances ▸ h), fun x h => hjobs ▸ h,
    fun f _ _ hs x hx => by rw [hjobs] at hx; rw [hinstances]; exact hs x hx⟩

theorem grown_touch (e : Entity) : Grown s ((touch e).after s) := by
  rw [touch, after_modify]
  split
  · exact grown_aside (g := fun s => { s with snapshots := s.snapshots.set e (s.projection e) })
      (fun _ => ⟨rfl, rfl, rfl⟩) s
  · exact .refl s

/-- A row set where there was none, with instances that add at most its own. -/
theorem grown_set {instances : String → Option (Finset StateMachine.Name)} {row : JobRuntime τ}
    (hother : ∀ x ≠ job, instances x = s.instances x)
    (hown : instances job = s.instances job ∧
        (∀ f, s.jobInstance = some f → (∀ job row, ∃ active, f job row = .ok active) → (s.instances job).isSome) ∨
      s.instances job = none ∧ s.jobs.get? job = none ∧
        ∃ f active, s.jobInstance = some f ∧ f job {} = .ok active ∧ instances job = some active) :
    Grown s { s with jobs := s.jobs.set job row, instances } := by
  refine ⟨rfl, fun x a hx => ?_, fun x a hx => ?_, fun x hx => ?_, fun f hf htotal hs x hx => ?_⟩
  · by_cases hxj : x = job
    · subst hxj
      rcases hown with ⟨hsame, -⟩ | ⟨hnone, -⟩
      · exact hsame.trans hx
      · rw [hnone] at hx
        cases hx
    · exact (hother x hxj).trans hx
  · by_cases hxj : x = job
    · subst hxj
      rcases hown with ⟨hsame, -⟩ | ⟨-, hrow, f, active, hf, hactive, hinst⟩
      · exact Or.inl (hsame ▸ hx)
      · refine Or.inr ⟨hrow, f, hf, ?_⟩
        rw [hactive, Option.some.inj (hinst.symm.trans hx)]
    · exact Or.inl ((hother x hxj).symm.trans hx)
  · dsimp only
    rw [Dict.get?_set]
    split
    · rfl
    · exact hx
  · by_cases hxj : x = job
    · subst hxj
      rcases hown with ⟨hsame, hsome⟩ | ⟨-, -, -, active, -, -, hinst⟩
      · dsimp only
        rw [hsame]
        exact hsome f hf htotal
      · exact Option.isSome_iff_exists.mpr ⟨active, hinst⟩
    · dsimp only at hx ⊢
      rw [Dict.get?_set, if_neg hxj] at hx
      rw [hother x hxj]
      exact hs x hx

theorem restoreRow_eq (job : String) (row : JobRuntime τ) (s : RuntimeState τ ω) :
    (restoreRow job row).after s = (match s.jobInstance with
      | none => pure ()
      | some f =>
        match restoreJob f job row s.instances with
        | .ok instances => modify fun s => { s with instances }
        | .error e => throw (.statechart e) : RuntimeM τ ω Unit).after s := rfl

/-- A row restored gets the instance it gives, unless one is there. -/
theorem restoreRow_after (job : String) (row : JobRuntime τ) (s : RuntimeState τ ω) :
    (s.jobInstance = none ∧ (restoreRow job row).after s = s) ∨ ∃ f, s.jobInstance = some f ∧
      (((s.instances job).isSome ∨ ∃ e, f job row = .error e) ∧ (restoreRow job row).after s = s ∨
        ∃ active, f job row = .ok active ∧ s.instances job = none ∧
          (restoreRow job row).after s = { s with instances := Function.update s.instances job (some active) }) := by
  have hafter := restoreRow_eq job row s
  rcases Option.eq_none_or_eq_some s.jobInstance with hf | ⟨f, hf⟩
  · exact Or.inl ⟨hf, by rw [hafter, hf]; rfl⟩
  · refine Or.inr ⟨f, hf, ?_⟩
    cases hactive : f job row with
    | error e =>
      have hraise : restoreJob f job row s.instances = .error e := by rw [restoreJob, hactive]; rfl
      exact Or.inl ⟨Or.inr ⟨e, rfl⟩, by rw [hafter, hf]; dsimp only; rw [hraise]; rfl⟩
    | ok active =>
      rcases Option.eq_none_or_eq_some (s.instances job) with hinst | ⟨old, hinst⟩
      · have hok : restoreJob f job row s.instances = .ok (Function.update s.instances job (some active)) := by
          rw [restoreJob, hactive, Infra.ok_bind, hinst]
        exact Or.inr ⟨active, rfl, hinst, by rw [hafter, hf]; dsimp only; rw [hok, ← hf]; rfl⟩
      · have hraise : restoreJob f job row s.instances = .error .instanceExists := by
          rw [restoreJob, hactive, Infra.ok_bind, hinst]
        exact Or.inl ⟨Or.inl (by simp [hinst]), by rw [hafter, hf]; dsimp only; rw [hraise]; rfl⟩

/-- A new row gets the instance it gives. -/
theorem grown_created (hnone : s.jobs.get? job = none) :
    Grown s ((restoreRow job {}).after { s with jobs := s.jobs.set job {} }) := by
  rcases restoreRow_after job {} { s with jobs := s.jobs.set job {} } with
    ⟨hf, hafter⟩ | ⟨f, hf, ⟨hheld, hafter⟩ | ⟨active, hactive, hinst, hafter⟩⟩
  · rw [hafter]
    refine grown_set (fun _ _ => rfl) (Or.inl ⟨rfl, fun f h => ?_⟩)
    cases h.symm.trans hf
  · rw [hafter]
    refine grown_set (fun _ _ => rfl) (Or.inl ⟨rfl, fun f' h htotal => ?_⟩)
    cases h.symm.trans hf
    rcases hheld with hsome | ⟨e, he⟩
    · exact hsome
    · obtain ⟨active, hactive⟩ := htotal job {}
      cases hactive.symm.trans he
  · rw [hafter]
    exact grown_set (fun x hx => Function.update_of_ne hx _ _)
      (Or.inr ⟨hinst, hnone, f, active, hf, hactive, Function.update_self _ _ _⟩)

theorem grown_runtime : Grown s ((runtime job).after s) := by
  rw [runtime, after_bind, result_get, after_get]
  dsimp only
  split
  · exact .refl s
  · split
    · exact .refl s
    · next hnone =>
      simp only [after_bind, result_modify, after_modify, after_pure]
      split
      · exact grown_created hnone
      · exact grown_created hnone

/-- A read that returns left its row. -/
theorem runtime_row {row : JobRuntime τ} (h : (runtime job).result s = .ok row) :
    (((runtime job).after s).jobs.get? job).isSome := by
  have htomb : ¬ (s.tombstones.get? job).isSome := by simp [runtime_tombstone h]
  rw [runtime, after_bind, result_get, after_get]
  dsimp only
  rw [if_neg htomb]
  split
  · next hrow => simp [hrow]
  · have hset : (((restoreRow job {}).after { s with jobs := s.jobs.set job {} }).jobs.get? job).isSome := by
      rcases restoreRow_after job {} { s with jobs := s.jobs.set job {} } with
        ⟨-, hafter⟩ | ⟨_, -, ⟨-, hafter⟩ | ⟨_, -, -, hafter⟩⟩
      · rw [hafter]
        simp
      · rw [hafter]
        simp
      · rw [hafter]
        simp
    simp only [after_bind, result_modify, after_modify, after_pure]
    split
    · exact hset
    · exact hset

theorem grown_replace {f : JobRuntime τ → JobRuntime τ} : Grown s ((replace job f).after s) := by
  have htouched : Grown s ((runtime job).after ((touch (.job job)).after s)) := (grown_touch _).trans grown_runtime
  have hafter : (replace job f).after s = (runtime job >>= fun row =>
      modify fun s => { s with jobs := s.jobs.set job (f row) }).after ((touch (.job job)).after s) := rfl
  rw [hafter, after_bind]
  split
  · next row hrow =>
    rw [after_modify]
    refine htouched.trans ⟨rfl, fun _ _ h => h, fun _ _ h => Or.inl h, fun x hx => ?_, fun _ _ _ hs x hx => ?_⟩
    · dsimp only
      rw [Dict.get?_set]
      split
      · rfl
      · exact hx
    · dsimp only at hx ⊢
      rw [Dict.get?_set] at hx
      split at hx
      · next hxj =>
        subst hxj
        exact hs _ (runtime_row hrow)
      · exact hs x hx
  · exact htouched

/-- **The parts of a verb move no instance.** -/
theorem parts_grown (s₀ : RuntimeState τ ω) : Parts (Grown s₀) where
  runtime _ _ h := h.trans grown_runtime
  replace _ _ _ h := h.trans grown_replace
  aside _ hg := keeps_modify fun s h => h.trans (grown_aside hg s)

end Dsl41.Store
