import Dsl41.Store.Transaction

/-!
# What a verb does to the rows

Every verb of an input writes rows one at a time, and what else it changes no row shows (`Still`).
`Verb.Edits` lists the row writes of each verb, so that a predicate of the rows is shown to survive
an input's verbs by looking at single rows.

* `Still` — the rows, the tombstones and the spent units read the same
* `Verb.Edits`, `Verb.keeps_rows` — the row writes of a verb, and the rule of a predicate
* `Held` — what a predicate needs to be kept by every input
-/

namespace Dsl41.Store

open Dsl41.Infra Dsl41.Infra.Effect
open RuntimeState

variable {τ ω : Type} [LinearOrder τ] {s s' s₀ : RuntimeState τ ω} {job : String} {α : Type}

/-! ## What no row shows -/

/-- The rows read the same, up to default rows made on demand; so do the tombstones and the spent
units. -/
structure Still (s s' : RuntimeState τ ω) : Prop where
  known : ∀ job, s'.jobs.get? job = s.jobs.get? job ∨
    s.jobs.get? job = none ∧ s.tombstones.get? job = none ∧ s'.jobs.get? job = some {}
  tombstones : s'.tombstones = s.tombstones
  consumed : s'.consumed = s.consumed

namespace Still

theorem refl (s : RuntimeState τ ω) : Still s s := ⟨fun _ => Or.inl rfl, rfl, rfl⟩

theorem trans {s'' : RuntimeState τ ω} (h : Still s s') (h' : Still s' s'') : Still s s'' where
  known job := by
    rcases h'.known job with hk' | ⟨hn, ht, hk'⟩
    · rw [hk']
      exact h.known job
    · rcases h.known job with hk | ⟨hn', ht', hk⟩
      · exact Or.inr ⟨hk ▸ hn, h.tombstones ▸ ht, hk'⟩
      · rw [hk] at hn
        cases hn
  tombstones := h'.tombstones.trans h.tombstones
  consumed := h'.consumed.trans h.consumed

theorem row (h : Still s s') (job : String) : s'.row job = s.row job := by
  rcases h.known job with hk | ⟨hn, -, hk⟩
  · rw [RuntimeState.row, hk]
    rfl
  · rw [RuntimeState.row, RuntimeState.row, hn, hk]
    rfl

/-- A change of the other fields. -/
theorem other {globals : Dict String GlobalRuntime} {phase : AssemblyPhase}
    {instances : String → Option (Finset StateMachine.Name)}
    {jobInstance : Option (JobInstance τ)} {timers : Timers τ ω} {timerSeq : Nat}
    {enqueueCounter : Nat} {snapshots : Dict Entity (Projection τ)} :
    Still s { s with globals, phase, instances, jobInstance, timers, timerSeq, enqueueCounter,
                     snapshots } :=
  ⟨fun _ => Or.inl rfl, rfl, rfl⟩

end Still

theorem still_touch (e : Entity) : Still s ((touch e).after s) := by
  rw [touch, after_modify]
  split
  · exact .other
  · exact .refl s

theorem still_restoreRow {row : JobRuntime τ} : Still s ((restoreRow job row).after s) := by
  rw [restoreRow, after_bind, result_get, after_get]
  dsimp only
  split
  · exact .refl s
  · split
    · exact .other
    · exact .refl s

/-- A removed name raises, a known row is read, a new one is the default row. -/
theorem still_runtime : Still s ((runtime job).after s) := by
  rw [runtime, after_bind, result_get, after_get]
  dsimp only
  split
  · exact .refl s
  · next htomb =>
    split
    · exact .refl s
    · next hnone =>
      have htomb : s.tombstones.get? job = none := by simpa using htomb
      have hcreate : Still s { s with jobs := s.jobs.set job {} } := by
        refine ⟨fun x => ?_, rfl, rfl⟩
        dsimp only
        rw [Dict.get?_set]
        split
        · next hx => exact Or.inr ⟨hx ▸ hnone, hx ▸ htomb, rfl⟩
        · exact Or.inl rfl
      simp only [after_bind, result_modify, after_modify, after_pure]
      split
      · exact hcreate.trans still_restoreRow
      · exact hcreate.trans still_restoreRow

theorem runtime_tombstone {row : JobRuntime τ} (h : (runtime job).result s = .ok row) :
    s.tombstones.get? job = none := by
  rw [runtime, result_bind, result_get, after_get] at h
  dsimp only at h
  split at h
  · cases h
  · next htomb => simpa using htomb

/-- The single write: nothing a row shows, or the row as the function leaves it. -/
theorem replace_cases {f : JobRuntime τ → JobRuntime τ} :
    Still s ((replace job f).after s) ∨ ∃ s₁, Still s s₁ ∧ s₁.tombstones.get? job = none ∧
      (replace job f).after s = { s₁ with jobs := s₁.jobs.set job (f (s₁.row job)) } := by
  have ht : Still s ((touch (.job job)).after s) := still_touch _
  have hr : Still s ((runtime job).after ((touch (.job job)).after s)) := ht.trans still_runtime
  have hafter : (replace job f).after s = (runtime job >>= fun row =>
      modify fun s => { s with jobs := s.jobs.set job (f row) }).after
        ((touch (.job job)).after s) := rfl
  rw [hafter, after_bind]
  split
  · next row hrow =>
    refine Or.inr ⟨_, hr, ?_, ?_⟩
    · rw [hr.tombstones, ← ht.tombstones]
      exact runtime_tombstone hrow
    · rw [after_modify, runtime_result hrow, still_runtime.row]
  · exact Or.inl hr

/-! ## The rule of a predicate -/

variable {P : RuntimeState τ ω → Prop}

/-- A predicate survives a row's write when it survives it wherever the row reads the same. -/
theorem after_replace_of {f : JobRuntime τ → JobRuntime τ} (hs : P s)
    (still : ∀ s s', Still s s' → P s → P s')
    (edit : ∀ s₁, P s₁ → s₁.tombstones.get? job = none → s₁.row job = s.row job →
      P { s₁ with jobs := s₁.jobs.set job (f (s.row job)) }) :
    P ((replace job f).after s) := by
  rcases (replace_cases : Still s ((replace job f).after s) ∨ _) with h | ⟨s₁, h₁, ht, hafter⟩
  · exact still _ _ h hs
  · rw [hafter, h₁.row]
    exact edit s₁ (still _ _ h₁ hs) ht (h₁.row job)

/-- The row a computation reads is the row it runs on. -/
theorem keeps_runtime_bind {g : JobRuntime τ → RuntimeM τ ω α}
    (still : ∀ s s', Still s s' → P s → P s')
    (hg : ∀ s, P s → s.tombstones.get? job = none → P ((g (s.row job)).after s)) :
    Keeps P (runtime job >>= g) := by
  intro s hs
  rw [after_bind]
  split
  · next row hrow =>
    have hr : Still s ((runtime job).after s) := still_runtime
    rw [runtime_result hrow, ← hr.row]
    exact hg _ (still _ _ hr hs) (hr.tombstones ▸ runtime_tombstone hrow)
  · exact still _ _ still_runtime hs

/-! ## The row writes of a verb -/

/-- The verb may write this row, read as `old`, as `new`. -/
def Verb.Edits (v : Verb τ ω) (job : String) (old new : JobRuntime τ) : Prop :=
  match v with
  | .transition j status at_ exitCode clears => job = j ∧ new = { old with
      status
      statusAt := at_
      lastEndAt := if status.terminal then at_ else old.lastEndAt
      exitCode := match exitCode with
        | some code => some code
        | none => if clears then none else old.exitCode }
  | .startRun j cause box isBox =>
    job = j ∧ (new = FlagState.armOff.write old ∨
      (∃ period, new = { old with
        runNumber := old.runNumber + 1, startedBy := some cause, startPeriod := period }) ∨
      isBox = true ∧ new = { old with
        ranMembers := ∅, windowSkippedMembers := ∅, icedOutMembers := ∅ }) ∨
    box = some job ∧ new = { old with
      ranMembers := old.ranMembers ∪ {j}
      windowSkippedMembers := old.windowSkippedMembers \ {j}
      icedOutMembers := old.icedOutMembers \ {j} }
  | .moveFlag j target => job = j ∧ new = target.write old
  | .clearExitCode j => job = j ∧ new = { old with exitCode := none }
  | .recordResolution box member => job = box ∧ new = { old with
      windowSkippedMembers := old.windowSkippedMembers ∪ {member} }
  | .recordIcedOut box member => job = box ∧ new = { old with
      icedOutMembers := old.icedOutMembers ∪ {member} }
  | .voidResolution box member => job = box ∧ new = { old with
      windowSkippedMembers := old.windowSkippedMembers \ {member} }
  | .seedJob j onIce onHold onNoexec => job = j ∧ new = { old with onIce, onHold, onNoexec }
  | .reserve j reservations =>
    job = j ∧ old.reservations = [] ∧ new = { old with reservations }
  | .takeOverHeld j reservations =>
    job = j ∧ ¬ old.status.live ∧ new = { old with reservations }
  | .releaseReservations j status keepsHeld => job = j ∧ new = { old with
      reservations := (unreleased (status = .success) keepsHeld old.reservations).1 }
  | .releaseHeld j => job = j ∧ ¬ old.status.live ∧ new = { old with reservations := [] }
  | .enqueueWaiter j =>
    job = j ∧ old.waiterSeq = none ∧ ∃ rank, new = { old with waiterSeq := some rank }
  | .dequeueWaiter j => job = j ∧ new = { old with waiterSeq := none }
  | _ => False

/-- The verbs of an input, but for the one that spends units. -/
def Verb.ofInput : Verb τ ω → Bool
  | .releaseReservations .. | .seedConsumed .. | .retireJob .. | .admitJob .. | .install ..
  | .keepJobInstances .. | .finishGenesis | .seedPeriod .. => false
  | _ => true

section Rule

variable (still : ∀ s s', Still s s' → P s → P s')

include still

theorem keeps_touchJob {owner : Option String} :
    Keeps P (touchJob owner : RuntimeM τ ω _) := by
  cases owner with
  | none => exact keeps_pure _
  | some job => exact fun s hs => still _ _ (still_touch _) hs

theorem keeps_modify_still {g : RuntimeState τ ω → RuntimeState τ ω} (hg : ∀ s, Still s (g s)) :
    Keeps P (modify g : RuntimeM τ ω _) := keeps_modify fun s hs => still _ _ (hg s) hs

theorem keeps_beginInput : Keeps P (beginInput : RuntimeM τ ω _) := by
  refine Keeps.bind (keeps_get.bind fun s => ?_) fun _ => keeps_modify_still still fun _ => .other
  split
  · exact keeps_modify_still still fun _ => .other
  · exact keeps_throw _

theorem keeps_restoreInstances_of : Keeps P (restoreInstances : RuntimeM τ ω _) := by
  refine keeps_get.bind fun s => ?_
  split
  · exact keeps_modify_still still fun _ => .other
  · split
    · exact keeps_modify_still still fun _ => .other
    · exact keeps_throw _

theorem keeps_popTimerDue_of {at_ : τ} : Keeps P (popTimerDue at_ : RuntimeM τ ω _) := by
  refine keeps_get.bind fun s => ?_
  split
  · exact keeps_pure _
  · split
    · exact keeps_pure _
    · exact (keeps_touchJob still).bind fun _ =>
        (keeps_modify_still still fun _ => .other).bind fun _ => keeps_pure _

theorem keeps_setGlobal_of {name value : String} :
    Keeps P (setGlobal name value : RuntimeM τ ω _) :=
  Keeps.bind (fun _ hs => still _ _ (still_touch _) hs) fun _ =>
    keeps_modify_still still fun _ => .other

theorem keeps_enqueueTimer_of {due : τ} {event : Event τ ω} :
    Keeps P (enqueueTimer due event : RuntimeM τ ω _) :=
  (keeps_touchJob still).bind fun _ => (keeps_modify_still still fun _ => .other).bind fun _ =>
    keeps_get.bind fun _ => keeps_pure _

end Rule

/-- **A predicate that no unseen change moves, and that the row writes of a verb of an input keep,
is kept by the verb.** -/
theorem Verb.keeps_rows {v : Verb τ ω} (hv : v.ofInput)
    (still : ∀ s s', Still s s' → P s → P s')
    (edit : ∀ s job new, P s → s.tombstones.get? job = none → v.Edits job (s.row job) new →
      P { s with jobs := s.jobs.set job new }) : Keeps P v.call := by
  have write : ∀ {s job} {f : JobRuntime τ → JobRuntime τ}, P s →
      v.Edits job (s.row job) (f (s.row job)) → P ((replace job f).after s) := by
    intro s job f hs he
    exact after_replace_of hs still fun s₁ h₁ ht hrow => edit s₁ job _ h₁ ht (hrow ▸ he)
  cases v with
  | runtime job =>
    exact Keeps.bind (fun _ hs => still _ _ still_runtime hs) fun _ => keeps_pure _
  | transition | moveFlag | clearExitCode | seedJob | dequeueWaiter =>
    exact fun s hs => write hs ⟨rfl, rfl⟩
  | startRun j cause box isBox =>
    refine Keeps.bind (fun s hs => write hs (Or.inl ⟨rfl, Or.inl rfl⟩)) fun _ => ?_
    refine keeps_runtime_bind still fun s hs _ => ?_
    rw [after_bind, result_get, after_get]
    dsimp only
    have hnumber := write (f := fun r => { r with
        runNumber := (s.row j).runNumber + 1, startedBy := some cause, startPeriod := s.periodId })
      hs (Or.inl ⟨rfl, Or.inr (Or.inl ⟨s.periodId, rfl⟩)⟩)
    have hreset : Keeps P (if isBox then resetBox j else pure () : RuntimeM τ ω Unit) := by
      split
      · next hb => exact fun s hs => write hs (Or.inl ⟨rfl, Or.inr (Or.inr ⟨hb, rfl⟩)⟩)
      · exact keeps_pure _
    rw [after_bind]
    split
    · cases box with
      | none => exact hreset _ hnumber
      | some box =>
        refine Keeps.bind ?_ (fun _ => hreset) _ hnumber
        exact keeps_runtime_bind still fun s hs _ => write hs (Or.inr ⟨rfl, rfl⟩)
    · exact hnumber
  | recordResolution | recordIcedOut =>
    exact keeps_runtime_bind still fun _ hs _ => write hs ⟨rfl, rfl⟩
  | voidResolution box member =>
    refine keeps_runtime_bind still fun s hs _ => ?_
    dsimp only
    split
    · exact write hs ⟨rfl, rfl⟩
    · exact hs
  | setGlobal => exact keeps_setGlobal_of still
  | reserve job reservations =>
    refine keeps_runtime_bind still fun s hs _ => ?_
    dsimp only
    split
    · exact hs
    · next h => exact write hs ⟨rfl, by simpa using h, rfl⟩
  | takeOverHeld =>
    refine keeps_runtime_bind still fun s hs _ => ?_
    dsimp only
    split
    · exact hs
    · next h => exact write hs ⟨rfl, h, rfl⟩
  | releaseHeld job =>
    refine Keeps.bind ?_ fun _ => keeps_pure _
    refine keeps_runtime_bind still fun s hs _ => ?_
    dsimp only
    split
    · exact hs
    · next h =>
      have hw := write (f := fun row => { row with reservations := [] }) hs ⟨rfl, h, rfl⟩
      rw [after_bind]
      split
      · exact hw
      · exact hw
  | enqueueWaiter job =>
    refine keeps_runtime_bind still fun s hs _ => ?_
    dsimp only
    split
    · next h =>
      rw [after_bind, result_get, after_get]
      dsimp only
      have hw := write (f := fun row => { row with waiterSeq := some (s.enqueueCounter + 1) })
        hs ⟨rfl, h, _, rfl⟩
      rw [after_bind]
      split
      · exact still _ _ .other hw
      · exact hw
    · exact hs
  | enqueueTimer => exact (keeps_enqueueTimer_of still).bind fun _ => keeps_pure _
  | popTimerDue => exact (keeps_popTimerDue_of still).bind fun _ => keeps_pure _
  | beginInput => exact keeps_beginInput still
  | restoreInstances => exact keeps_restoreInstances_of still
  | moveInstance => exact keeps_modify_still still fun _ => .other
  | releaseReservations | seedConsumed | retireJob | admitJob | install | keepJobInstances
  | finishGenesis | seedPeriod => cases hv

/-- A settlement writes the row of its job, then spends units. -/
theorem keeps_releaseReservations_of {status : JobStatus} {keepsHeld : Option (String → Bool)}
    (still : ∀ s s', Still s s' → P s → P s')
    (edit : ∀ s, P s → s.tombstones.get? job = none →
      P { s with
        jobs := s.jobs.set job { s.row job with
          reservations :=
            (unreleased (status = .success) keepsHeld (s.row job).reservations).1 } })
    (spend : ∀ s consumed, P s → P { s with consumed }) :
    Keeps P (releaseReservations job status keepsHeld : RuntimeM τ ω _) := by
  refine keeps_runtime_bind still fun s hs _ => ?_
  dsimp only
  split
  · have hw := after_replace_of (f := fun row => { row with reservations :=
        (unreleased (status = .success) keepsHeld (s.row job).reservations).1 }) hs still
      fun s₁ h₁ ht hrow => by rw [← hrow]; exact edit s₁ h₁ ht
    rw [after_bind]
    split
    · exact spend _ _ hw
    · exact hw
  · exact hs

/-! ## The commit -/

theorem keeps_raiseIf_of (e : Option StoreError) : Keeps P (raiseIf e : RuntimeM τ ω _) := by
  cases e with
  | none => exact keeps_pure _
  | some e => exact keeps_throw e

/-- A commit writes revisions alone. -/
theorem keeps_commitInput_of (still : ∀ s s', Still s s' → P s → P s')
    (rev : ∀ s job, P s → s.tombstones.get? job = none →
      P { s with
        jobs := s.jobs.set job { s.row job with stateRev := (s.row job).stateRev + 1 } }) :
    Keeps P (commitInput : RuntimeM τ ω _) := by
  have hassemble : Keeps P (assemble .commitInput : RuntimeM τ ω _) := by
    refine keeps_get.bind fun s => ?_
    split
    · exact keeps_modify_still still fun _ => .other
    · exact keeps_throw _
  have hbump : ∀ e : Entity, Keeps P (bump e : RuntimeM τ ω _) := by
    intro e
    cases e with
    | job name =>
      refine keeps_runtime_bind still fun s hs _ => ?_
      exact after_replace_of hs still fun s₁ h₁ ht hrow => by rw [← hrow]; exact rev s₁ _ h₁ ht
    | global name =>
      refine keeps_get.bind fun s => ?_
      split
      · exact keeps_throw _
      · exact keeps_modify_still still fun _ => .other
  have hall : ∀ l : List Entity, Keeps P (bumpAll l : RuntimeM τ ω _) := by
    intro l
    induction l with
    | nil => exact keeps_pure _
    | cons e l ih => exact (hbump e).bind fun _ => ih
  refine hassemble.bind fun _ => keeps_get.bind fun s => ?_
  refine (keeps_modify_still still fun _ => .other).bind fun _ => ?_
  refine (keeps_raiseIf_of _).bind fun _ => (hall _).bind fun _ => keeps_get.bind fun _ => ?_
  exact (keeps_raiseIf_of _).bind fun _ => keeps_pure _

/-! ## A predicate of an input's verbs -/

/-- The verbs of an input keep the predicate, the settlement's and the commit included. -/
structure Held (P : RuntimeState τ ω → Prop) : Prop where
  still : ∀ s s', Still s s' → P s → P s'
  verb : ∀ v : Verb τ ω, v.ofInput → Keeps P v.call
  settle : ∀ job status keepsHeld,
    Keeps P (releaseReservations job status keepsHeld : RuntimeM τ ω _)
  commit : Keeps P (commitInput : RuntimeM τ ω _)

/-- A predicate of the rows that survives every row write and every change of the spent units. -/
theorem Held.of_rows (still : ∀ s s', Still s s' → P s → P s')
    (edit : ∀ (v : Verb τ ω) s job new, P s → s.tombstones.get? job = none →
      v.Edits job (s.row job) new → P { s with jobs := s.jobs.set job new })
    (spend : ∀ s consumed, P s → P { s with consumed })
    (rev : ∀ s job, P s → s.tombstones.get? job = none →
      P { s with
        jobs := s.jobs.set job { s.row job with stateRev := (s.row job).stateRev + 1 } }) : Held P where
  still := still
  verb v hv := v.keeps_rows hv still (edit v)
  settle job status keepsHeld := keeps_releaseReservations_of still
    (fun s hs ht => edit (.releaseReservations job status keepsHeld) s job _ hs ht ⟨rfl, rfl⟩) spend
  commit := keeps_commitInput_of still rev

end Dsl41.Store
