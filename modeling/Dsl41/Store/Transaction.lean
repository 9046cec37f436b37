import Dsl41.Store.Verbs

/-!
# One revision for each changed entity

In an open input every verb touches an entity before it writes its row, its value or its timers,
and none moves a revision. So the snapshots of the input track the projections (`Opened`), and the
commit, which compares the two, increments exactly the entities that changed.

* `Opened` — the invariant of an open input, `Verb.keeps` — every verb keeps it
* `bumpAll_spec` — what the increments do
* `commit_revisions` — the input as a whole
-/

namespace Dsl41.Store

open Dsl41.Infra Dsl41.Infra.Effect
open RuntimeState

variable {τ ω : Type} [LinearOrder τ] {s s' s₀ : RuntimeState τ ω} {job : String}

/-! ## What a step leaves alone -/

/-- No row, no global and no timer has moved. -/
structure SameRows (s s' : RuntimeState τ ω) : Prop where
  row : ∀ job, s'.row job = s.row job
  globals : s'.globals = s.globals
  timers : s'.timers = s.timers

theorem SameRows.projection (h : SameRows s s') (e : Entity) : s'.projection e = s.projection e := by
  cases e with
  | job name => rw [RuntimeState.projection, h.row, h.timers]; rfl
  | global name => rw [RuntimeState.projection, h.globals]; rfl

theorem SameRows.entityRevision (h : SameRows s s') (e : Entity) :
    s'.entityRevision e = s.entityRevision e := by
  cases e with
  | job name => rw [RuntimeState.entityRevision, h.row]; rfl
  | global name => rw [RuntimeState.entityRevision, h.globals]; rfl

/-- Nor has what the input's bookkeeping reads. -/
structure Unmoved (s s' : RuntimeState τ ω) : Prop extends SameRows s s' where
  phase : s'.phase = s.phase
  snapshots : s'.snapshots = s.snapshots

theorem Unmoved.refl (s : RuntimeState τ ω) : Unmoved s s := ⟨⟨fun _ => rfl, rfl, rfl⟩, rfl, rfl⟩

theorem Unmoved.trans {s'' : RuntimeState τ ω} (h : Unmoved s s') (h' : Unmoved s' s'') :
    Unmoved s s'' where
  row job := (h'.row job).trans (h.row job)
  globals := h'.globals.trans h.globals
  timers := h'.timers.trans h.timers
  phase := h'.phase.trans h.phase
  snapshots := h'.snapshots.trans h.snapshots

theorem restoreRow_unmoved (s : RuntimeState τ ω) (row : JobRuntime τ) :
    Unmoved s ((restoreRow job row).after s) := by
  rw [restoreRow, after_bind, result_get, after_get]
  dsimp only
  split
  · exact Unmoved.refl s
  · split
    · exact ⟨⟨fun _ => rfl, rfl, rfl⟩, rfl, rfl⟩
    · exact Unmoved.refl s

/-- A row created on demand is the default row, which the missing one was read as. -/
theorem unmoved_create (h : s.jobs.get? job = none) :
    Unmoved s { s with jobs := s.jobs.set job {} } := by
  refine ⟨⟨fun name => ?_, rfl, rfl⟩, rfl, rfl⟩
  simp only [RuntimeState.row, Dict.get?_set]
  split
  · next hn => rw [hn, h]; rfl
  · rfl

theorem runtime_unmoved (job : String) (s : RuntimeState τ ω) : Unmoved s ((runtime job).after s) := by
  rw [runtime, after_bind, result_get, after_get]
  dsimp only
  split
  · exact Unmoved.refl s
  · split
    · exact Unmoved.refl s
    · next hnone =>
      have hcreate : Unmoved s { s with jobs := s.jobs.set job {} } := unmoved_create hnone
      simp only [after_bind, result_modify, after_modify, after_pure]
      split
      · exact hcreate.trans (restoreRow_unmoved _ _)
      · exact hcreate.trans (restoreRow_unmoved _ _)

/-- What `runtime` returns is the row, as every read sees it. -/
theorem runtime_result {row : JobRuntime τ} (h : (runtime job).result s = .ok row) :
    row = s.row job := by
  rw [runtime, result_bind, result_get, after_get] at h
  dsimp only at h
  split at h
  · cases h
  · split at h
    · next hsome =>
      cases h
      rw [RuntimeState.row, hsome]
      rfl
    · next hnone =>
      simp only [result_bind, result_modify, after_modify, result_pure] at h
      split at h
      · cases h
        rw [RuntimeState.row, hnone]
        rfl
      · cases h

/-! ## An open input -/

/-- An input opened at `s₀` has come to `s`: what the snapshots keep is the projection `s₀` had,
what they do not keep has not moved, and no revision has. -/
structure Opened (s₀ s : RuntimeState τ ω) : Prop where
  isOpen : s.phase.isOpen
  tracks : Tracks s₀.projection s.projection s.snapshots
  revision : ∀ e, s.entityRevision e = s₀.entityRevision e

/-- The entity is kept by the open input's snapshots. -/
def Touched (e : Entity) (s : RuntimeState τ ω) : Prop := s.snapshots.get? e ≠ none

namespace Opened

variable (h : Opened s₀ s)
include h

/-- A write keeps the input open when no revision moves, and no projection of an entity that was
not touched. -/
theorem write (hphase : s'.phase = s.phase) (hsnap : s'.snapshots = s.snapshots)
    (hrev : ∀ e, s'.entityRevision e = s.entityRevision e)
    (hproj : ∀ e, ¬ Touched e s → s'.projection e = s.projection e) : Opened s₀ s' where
  isOpen := hphase ▸ h.isOpen
  tracks := by
    rw [hsnap]
    exact h.tracks.write fun e he => hproj e (not_not_intro he)
  revision e := (hrev e).trans (h.revision e)

theorem unmoved (hu : Unmoved s s') : Opened s₀ s' :=
  h.write hu.phase hu.snapshots hu.entityRevision fun e _ => hu.projection e

theorem touch (e : Entity) : Opened s₀ ((RuntimeState.touch e).after s) := by
  rw [RuntimeState.touch, after_modify]
  split
  · next hk => exact ⟨h.isOpen, h.tracks.touch hk.2, h.revision⟩
  · exact h

/-- A touched entity's row, value or timers may be written: whatever the write does to its
projection, the snapshots track it. -/
theorem writeAt {e : Entity} (ht : Touched e s) (hphase : s'.phase = s.phase)
    (hsnap : s'.snapshots = s.snapshots) (hrev : ∀ x, s'.entityRevision x = s.entityRevision x)
    (hother : ∀ x, x ≠ e → s'.projection x = s.projection x) : Opened s₀ s' :=
  h.write hphase hsnap hrev fun x hx => hother x fun he => hx (he ▸ ht)

theorem setRow {row : JobRuntime τ} (ht : Touched (.job job) s)
    (hrev : row.stateRev = (s.row job).stateRev) :
    Opened s₀ { s with jobs := s.jobs.set job row } := by
  have hrow : ∀ name, name ≠ job →
      ({ s with jobs := s.jobs.set job row } : RuntimeState τ ω).row name = s.row name := by
    intro name hn
    simp only [RuntimeState.row, Dict.get?_set_ne hn]
  refine h.writeAt ht rfl rfl ?_ ?_
  · rintro (name | name)
    · by_cases hn : name = job
      · subst hn
        simpa [RuntimeState.entityRevision, RuntimeState.row] using hrev
      · simp only [RuntimeState.entityRevision, hrow name hn]
    · rfl
  · rintro (name | name) hx
    · have hn : name ≠ job := fun hn => hx (hn ▸ rfl)
      simp only [RuntimeState.projection, hrow name hn]
    · rfl

end Opened

theorem touched_touch (ho : s.phase.isOpen) (e : Entity) :
    Touched e ((RuntimeState.touch e).after s) := by
  rw [RuntimeState.touch, after_modify, Touched]
  split
  · simp
  · next hk => exact fun hn => hk ⟨ho, hn⟩

/-! ## The verbs keep the input open -/

variable {α : Type} {f : JobRuntime τ → JobRuntime τ}

theorem keeps_runtime : Keeps (Opened s₀) (runtime job : RuntimeM τ ω _) :=
  fun s h => h.unmoved (runtime_unmoved job s)

/-- The single write: the row is touched first, and its fields do not move the revision. -/
theorem keeps_replace (hf : ∀ row, (f row).stateRev = row.stateRev) :
    Keeps (Opened s₀) (replace job f : RuntimeM τ ω _) := by
  intro s h
  have ht : Opened s₀ ((touch (.job job)).after s) := h.touch _
  have hk : Touched (.job job) ((touch (.job job)).after s) := touched_touch h.isOpen _
  have hu := runtime_unmoved job ((touch (.job job)).after s)
  rw [replace, after_bind]
  change Opened s₀ (((runtime job >>= fun row =>
    modify fun s => { s with jobs := s.jobs.set job (f row) }) : RuntimeM τ ω Unit).after _)
  rw [after_bind]
  split
  · next row hrow =>
    refine (ht.unmoved hu).setRow ?_ ?_
    · rwa [Touched, hu.snapshots]
    · rw [hf, runtime_result hrow, hu.row]
  · exact ht.unmoved hu

/-- A write of what no projection, no revision and no snapshot reads. -/
theorem keeps_modify_unmoved {g : RuntimeState τ ω → RuntimeState τ ω} (hg : ∀ s, Unmoved s (g s)) :
    Keeps (Opened s₀) (modify g : RuntimeM τ ω _) :=
  keeps_modify fun s h => h.unmoved (hg s)

theorem keeps_raiseIf (e : Option StoreError) : Keeps (Opened s₀) (raiseIf e : RuntimeM τ ω _) := by
  cases e with
  | none => exact keeps_pure _
  | some e => exact keeps_throw e

theorem keeps_moveFlag {target : FlagState} :
    Keeps (Opened s₀) (moveFlag job target : RuntimeM τ ω _) :=
  keeps_replace fun row => FlagState.write_stateRev row target

theorem keeps_joinBox {box : String} : Keeps (Opened s₀) (joinBox job box : RuntimeM τ ω _) :=
  keeps_runtime.bind fun _ => keeps_replace fun _ => rfl

theorem keeps_startRun {cause : String} {box : Option String} {isBox : Bool} :
    Keeps (Opened s₀) (startRun job cause box isBox : RuntimeM τ ω _) := by
  refine keeps_moveFlag.bind fun _ => keeps_runtime.bind fun row => keeps_get.bind fun s => ?_
  refine Keeps.bind (keeps_replace fun _ => rfl) fun _ => ?_
  have hreset : Keeps (Opened s₀)
      (if isBox then resetBox job else pure () : RuntimeM τ ω Unit) := by
    split
    · exact keeps_replace fun _ => rfl
    · exact keeps_pure _
  cases box with
  | none => exact hreset
  | some box => exact keeps_joinBox.bind fun _ => hreset

theorem keeps_voidResolution {box member : String} :
    Keeps (Opened s₀) (voidResolution box member : RuntimeM τ ω _) := by
  refine keeps_runtime.bind fun row => ?_
  dsimp only
  split
  · exact keeps_replace fun _ => rfl
  · exact keeps_pure _

theorem keeps_touch_modify {e : Entity} {g : RuntimeState τ ω → RuntimeState τ ω}
    (hg : ∀ s, Opened s₀ s → Touched e s → Opened s₀ (g s)) :
    Keeps (Opened s₀) (do touch e; modify g : RuntimeM τ ω _) :=
  fun _ h => hg _ (h.touch e) (touched_touch h.isOpen e)

theorem keeps_setGlobal {name value : String} :
    Keeps (Opened s₀) (setGlobal name value : RuntimeM τ ω _) := by
  refine keeps_touch_modify fun s h ht => h.writeAt ht rfl rfl ?_ ?_
  · rintro (n | n)
    · rfl
    · by_cases hn : n = name
      · subst hn
        simp [RuntimeState.entityRevision]
      · simp [RuntimeState.entityRevision, Dict.get?_set_ne hn]
  · rintro (n | n) hx
    · rfl
    · have hn : n ≠ name := fun hn => hx (hn ▸ rfl)
      simp [RuntimeState.projection, Dict.get?_set_ne hn]

theorem keeps_reserve {reservations : List CapacityReservation} :
    Keeps (Opened s₀) (reserve job reservations : RuntimeM τ ω _) := by
  refine keeps_runtime.bind fun row => ?_
  split
  · exact (keeps_throw _).bind fun _ => keeps_replace fun _ => rfl
  · exact keeps_replace fun _ => rfl

theorem keeps_takeOverHeld {reservations : List CapacityReservation} :
    Keeps (Opened s₀) (takeOverHeld job reservations : RuntimeM τ ω _) := by
  refine keeps_runtime.bind fun row => ?_
  split
  · exact (keeps_throw _).bind fun _ => keeps_replace fun _ => rfl
  · exact keeps_replace fun _ => rfl

theorem keeps_releaseReservations {newStatus : JobStatus} {keepsHeld : Option (String → Bool)} :
    Keeps (Opened s₀) (releaseReservations job newStatus keepsHeld : RuntimeM τ ω _) := by
  refine keeps_runtime.bind fun row => ?_
  split
  · refine Keeps.bind (keeps_replace fun _ => rfl) fun _ => keeps_modify_unmoved fun s => ?_
    exact ⟨⟨fun _ => rfl, rfl, rfl⟩, rfl, rfl⟩
  · exact keeps_pure _

theorem keeps_releaseHeld : Keeps (Opened s₀) (releaseHeld job : RuntimeM τ ω _) := by
  refine keeps_runtime.bind fun row => ?_
  split
  · exact (keeps_throw _).bind fun _ => Keeps.bind (keeps_replace fun _ => rfl) fun _ => keeps_pure _
  · exact Keeps.bind (keeps_replace fun _ => rfl) fun _ => keeps_pure _

theorem keeps_enqueueWaiter : Keeps (Opened s₀) (enqueueWaiter job : RuntimeM τ ω _) := by
  refine keeps_runtime.bind fun row => ?_
  split
  · refine keeps_get.bind fun s => Keeps.bind (keeps_replace fun _ => rfl) fun _ => ?_
    exact keeps_modify_unmoved fun s => ⟨⟨fun _ => rfl, rfl, rfl⟩, rfl, rfl⟩
  · exact keeps_pure _

theorem keeps_seedConsumed {consumed : Dict String Int} :
    Keeps (Opened s₀) (seedConsumed consumed : RuntimeM τ ω _) :=
  (keeps_raiseIf _).bind fun _ =>
    keeps_modify_unmoved fun _ => ⟨⟨fun _ => rfl, rfl, rfl⟩, rfl, rfl⟩

/-! ### Timers -/

theorem timers_touch (e : Entity) : ((touch e).after s).timers = s.timers := by
  rw [touch, after_modify]
  split
  · rfl
  · rfl

/-- The timers move once their owner is touched; a timer of no job is in no projection. -/
theorem Opened.writeTimers (h : Opened s₀ s) {owner : Option String}
    {timers : RuntimeState τ ω → Timers τ ω} {seq : RuntimeState τ ω → Nat}
    (hother : ∀ s', s'.timers = s.timers → ∀ name, owner ≠ some name →
      (timers s').timersFor name = s.timers.timersFor name) :
    Opened s₀ ((do
      touchJob owner
      modify fun s => { s with timers := timers s, timerSeq := seq s } : RuntimeM τ ω _).after s) := by
  have hrev : ∀ (s : RuntimeState τ ω) e,
      ({ s with timers := timers s, timerSeq := seq s } : RuntimeState τ ω).entityRevision e =
        s.entityRevision e := by
    rintro s (name | name)
    · rfl
    · rfl
  have hproj : ∀ (s' : RuntimeState τ ω) e, s'.timers = s.timers →
      (∀ name, owner = some name → e ≠ .job name) →
      ({ s' with timers := timers s', timerSeq := seq s' } : RuntimeState τ ω).projection e =
        s'.projection e := by
    rintro s' (name | name) hs' he
    · have hn := hother s' hs' name fun ho => he name ho rfl
      simp only [RuntimeState.projection, hn, hs']
      rfl
    · rfl
  cases owner with
  | none => exact h.write rfl rfl (hrev s) fun e _ => hproj s e rfl fun _ hn => nomatch hn
  | some owner =>
    refine (h.touch _).writeAt (touched_touch h.isOpen _) rfl rfl (hrev _) fun e he => ?_
    exact hproj _ e (timers_touch _) fun name hn => Option.some.inj hn ▸ he

theorem keeps_enqueueTimer {due : τ} {event : Event τ ω} :
    Keeps (Opened s₀) (enqueueTimer due event : RuntimeM τ ω _) := by
  unfold enqueueTimer
  rw [← bind_assoc]
  refine Keeps.bind (fun s h => h.writeTimers fun s' hs' name hn => ?_) fun _ =>
    keeps_get.bind fun _ => keeps_pure _
  rw [Timers.timersFor_push hn, hs']

theorem keeps_popTimerDue {at_ : τ} : Keeps (Opened s₀) (popTimerDue at_ : RuntimeM τ ω _) := by
  refine keeps_get_bind fun s h => ?_
  split
  · exact h
  · next t rest hentries =>
    split
    · exact h
    · rw [← bind_assoc]
      rw [after_bind_pure]
      refine h.writeTimers fun s' hs' name hn => ?_
      rw [hs', Timers.timersFor_pop]
      simpa [hentries] using hn

/-! ### What an open input refuses -/

theorem result_assemble {event : AssemblyEvent} : (assemble event).result s =
    match s.phase.assemble event with
    | .ok _ => .ok ()
    | .error code => .error (.refused (code.raised s.phase).1 (code.raised s.phase).2) := by
  rw [assemble, result_bind, result_get, after_get]
  dsimp only
  cases s.phase.assemble event with
  | ok phase => rfl
  | error code => rfl

theorem after_assemble {event : AssemblyEvent} : (assemble event).after s =
    match s.phase.assemble event with
    | .ok phase => { s with phase }
    | .error _ => s := by
  rw [assemble, after_bind, result_get, after_get]
  dsimp only
  cases s.phase.assemble event with
  | ok phase => rfl
  | error code => rfl

/-- In an open input no verb but the commit moves the phase: it raises, and what follows it in
the verb's body does not run. -/
theorem keeps_assemble_bind {event : AssemblyEvent} (he : event ≠ .commitInput)
    {g : Unit → RuntimeM τ ω α} : Keeps (Opened s₀) (assemble event >>= g) := by
  refine keeps_bind_of_raises (fun s h => ?_) fun s h => ?_
  · obtain ⟨code, hcode⟩ := AssemblyPhase.assemble_of_isOpen h.isOpen he
    rw [result_assemble, hcode]
    exact ⟨_, rfl⟩
  · obtain ⟨code, hcode⟩ := AssemblyPhase.assemble_of_isOpen h.isOpen he
    rwa [after_assemble, hcode]

theorem keeps_finishGenesis : Keeps (Opened s₀) (finishGenesis : RuntimeM τ ω _) := by
  rw [finishGenesis, ← bind_pure (assemble AssemblyEvent.finishGenesis)]
  exact keeps_assemble_bind (by decide)

theorem keeps_seedPeriod {periodId : Int} :
    Keeps (Opened s₀) (seedPeriod periodId : RuntimeM τ ω _) := by
  refine keeps_bind_of_raises (fun s h => ?_) fun s h => ?_
  · obtain ⟨code, hcode⟩ := AssemblyPhase.assemble_of_isOpen h.isOpen
      (show AssemblyEvent.seedPeriod ≠ .commitInput by decide)
    rw [readAssembly, result_bind, result_get, after_get]
    simp only [hcode]
    exact ⟨_, rfl⟩
  · rw [readAssembly, after_bind, result_get, after_get]
    dsimp only
    split
    · exact h
    · exact h

theorem keeps_requireBetweenInputs_bind {verb : String} {g : Unit → RuntimeM τ ω α} :
    Keeps (Opened s₀) (requireBetweenInputs verb job >>= g) := by
  have hraises : ∀ s, Opened s₀ s → (requireBetweenInputs verb job : RuntimeM τ ω _).result s =
      .error (.insideInput verb job) ∧
        (requireBetweenInputs verb job : RuntimeM τ ω _).after s = s := by
    intro s h
    rw [requireBetweenInputs, result_bind, after_bind, result_get, after_get]
    simp only [h.isOpen]
    exact ⟨rfl, rfl⟩
  refine keeps_bind_of_raises (fun s h => ⟨_, (hraises s h).1⟩) fun s h => ?_
  rwa [(hraises s h).2]

theorem keeps_restoreInstances : Keeps (Opened s₀) (restoreInstances : RuntimeM τ ω _) := by
  refine keeps_get_bind fun s h => ?_
  have hset : ∀ instances, Unmoved s { s with instances } :=
    fun _ => ⟨⟨fun _ => rfl, rfl, rfl⟩, rfl, rfl⟩
  split
  · exact h.unmoved (hset _)
  · split
    · exact h.unmoved (hset _)
    · exact h

/-- **Every verb keeps the input open and its snapshots true**, whether it returns or raises. -/
theorem Verb.keeps (v : Verb τ ω) : Keeps (Opened s₀) v.call := by
  cases v with
  | runtime job => exact keeps_runtime.bind fun _ => keeps_pure _
  | transition | clearExitCode | seedJob | dequeueWaiter => exact keeps_replace fun _ => rfl
  | startRun => exact keeps_startRun
  | moveFlag => exact keeps_moveFlag
  | recordResolution | recordIcedOut =>
    exact keeps_runtime.bind fun _ => keeps_replace fun _ => rfl
  | voidResolution => exact keeps_voidResolution
  | setGlobal => exact keeps_setGlobal
  | reserve => exact keeps_reserve
  | takeOverHeld => exact keeps_takeOverHeld
  | releaseReservations => exact keeps_releaseReservations
  | releaseHeld => exact keeps_releaseHeld.bind fun _ => keeps_pure _
  | enqueueWaiter => exact keeps_enqueueWaiter
  | seedConsumed => exact keeps_seedConsumed
  | enqueueTimer => exact keeps_enqueueTimer.bind fun _ => keeps_pure _
  | popTimerDue => exact keeps_popTimerDue.bind fun _ => keeps_pure _
  | beginInput => exact keeps_assemble_bind (by decide)
  | retireJob => exact keeps_requireBetweenInputs_bind.bind fun _ => keeps_pure _
  | admitJob => exact keeps_requireBetweenInputs_bind
  | restoreInstances => exact keeps_restoreInstances
  | keepJobInstances =>
    refine Keeps.bind (keeps_modify_unmoved fun _ => ?_) fun _ => keeps_restoreInstances
    exact ⟨⟨fun _ => rfl, rfl, rfl⟩, rfl, rfl⟩
  | moveInstance => exact keeps_modify_unmoved fun _ => ⟨⟨fun _ => rfl, rfl, rfl⟩, rfl, rfl⟩
  | install => exact keeps_assemble_bind (by decide)
  | finishGenesis => exact keeps_finishGenesis
  | seedPeriod => exact keeps_seedPeriod

theorem runVerbs_opened {verbs : List (Verb τ ω)} : ∀ {s}, Opened s₀ s →
    Opened s₀ (runVerbs s verbs) := by
  induction verbs with
  | nil => exact fun h => h
  | cons v verbs ih => exact fun h => ih (v.keeps _ h)

/-- Opening an input: nothing is kept yet and nothing has moved. -/
theorem opened_begin (h : (beginInput : RuntimeM τ ω _).result s = .ok ()) :
    Opened s (beginInput.after s) := by
  unfold beginInput at h ⊢
  obtain ⟨_, hassemble, -, hafter⟩ := bind_result_ok h
  rw [result_assemble] at hassemble
  rw [hafter, after_modify, after_assemble]
  cases hphase : s.phase.assemble .beginInput with
  | error code => rw [hphase] at hassemble; cases hassemble
  | ok phase =>
    have hsame : SameRows s { s with phase, snapshots := ∅ } := ⟨fun _ => rfl, rfl, rfl⟩
    refine ⟨AssemblyPhase.isOpen_of_begin hphase, ?_, hsame.entityRevision⟩
    exact Tracks.start.write fun e _ => hsame.projection e

/-! ## The commit -/

/-- No input is open, every projection is what it was, and the revisions have grown by a count. -/
structure Bumped (s s' : RuntimeState τ ω) (count : Entity → Nat) : Prop where
  closed : ¬ s'.phase.isOpen
  projection : ∀ e, s'.projection e = s.projection e
  revision : ∀ e, s'.entityRevision e = s.entityRevision e + count e

theorem Unmoved.bumped (h : Unmoved s s') (hs : ¬ s.phase.isOpen) : Bumped s s' fun _ => 0 where
  closed := h.phase ▸ hs
  projection := h.projection
  revision e := by rw [h.entityRevision, Nat.add_zero]

theorem Bumped.trans {s'' : RuntimeState τ ω} {count count' : Entity → Nat}
    (h : Bumped s s' count) (h' : Bumped s' s'' count') :
    Bumped s s'' fun e => count e + count' e where
  closed := h'.closed
  projection e := (h'.projection e).trans (h.projection e)
  revision e := by rw [h'.revision, h.revision, Nat.add_assoc]

/-- The one change of an increment, outside an input. -/
theorem bumped_setRow (job : String) (row : JobRuntime τ) (hs : ¬ s.phase.isOpen)
    (hfields : row.toJobFields = (s.row job).toJobFields)
    (hrev : row.stateRev = (s.row job).stateRev + 1) :
    Bumped s { s with jobs := s.jobs.set job row } fun e => if e = .job job then 1 else 0 where
  closed := hs
  projection := by
    rintro (name | name)
    · by_cases hn : name = job
      · subst hn
        simpa [RuntimeState.projection, RuntimeState.row] using hfields
      · simp [RuntimeState.projection, RuntimeState.row, Dict.get?_set_ne hn]
    · rfl
  revision := by
    rintro (name | name)
    · by_cases hn : name = job
      · subst hn
        simpa [RuntimeState.entityRevision, RuntimeState.row] using hrev
      · simp [RuntimeState.entityRevision, RuntimeState.row, Dict.get?_set_ne hn, hn]
    · simp [RuntimeState.entityRevision]

theorem bumped_setGlobal (hs : ¬ s.phase.isOpen) {name : String} {row : GlobalRuntime}
    (hrow : s.globals.get? name = some row) :
    Bumped s { s with globals := s.globals.set name { row with stateRev := row.stateRev + 1 } }
      fun e => if e = .global name then 1 else 0 where
  closed := hs
  projection := by
    rintro (n | n)
    · rfl
    · by_cases hn : n = name
      · subst hn
        simp [RuntimeState.projection, hrow]
      · simp [RuntimeState.projection, Dict.get?_set_ne hn]
  revision := by
    rintro (n | n)
    · simp only [RuntimeState.entityRevision, reduceCtorEq, if_false, Nat.add_zero]
      rfl
    · by_cases hn : n = name
      · subst hn
        simp [RuntimeState.entityRevision, hrow]
      · simp [RuntimeState.entityRevision, Dict.get?_set_ne hn, hn]

/-- Outside an input `_replace` touches nothing: it writes the row it read. -/
theorem after_replace_closed {f : JobRuntime τ → JobRuntime τ} (hs : ¬ s.phase.isOpen)
    (h : (replace job f).result s = .ok ()) :
    ∃ s₁, Unmoved s s₁ ∧ (replace job f).after s =
      { s₁ with jobs := s₁.jobs.set job (f (s₁.row job)) } := by
  unfold replace at h ⊢
  obtain ⟨_, -, h, hafter⟩ := bind_result_ok h
  have htouch : (touch (.job job)).after s = s := by
    rw [touch, after_modify, if_neg fun h => hs h.1]
  rw [htouch] at h hafter
  obtain ⟨row, hrow, -, hwrite⟩ := bind_result_ok h
  have hu := runtime_unmoved job s
  refine ⟨_, hu, ?_⟩
  rw [hafter, hwrite, after_modify, runtime_result hrow, hu.row]

theorem bump_spec {e : Entity} (hs : ¬ s.phase.isOpen) (h : (bump e).result s = .ok ()) :
    Bumped s ((bump e).after s) fun x => if x = e then 1 else 0 := by
  cases e with
  | job name =>
    unfold bump at h ⊢
    obtain ⟨row, hrow, hreplace, hafter⟩ := bind_result_ok h
    have hu := runtime_unmoved name s
    have hclosed : ¬ ((runtime name).after s).phase.isOpen := hu.phase ▸ hs
    obtain ⟨s₁, hu₁, hs₁⟩ := after_replace_closed hclosed hreplace
    have hs₁' := hu.trans hu₁
    rw [hafter, hs₁]
    have h₁ : Bumped s s₁ fun _ => 0 := hs₁'.bumped hs
    have h₂ := bumped_setRow name { s₁.row name with stateRev := row.stateRev + 1 }
      h₁.closed rfl (by rw [runtime_result hrow, hs₁'.row])
    simpa using h₁.trans h₂
  | global name =>
    unfold bump at h ⊢
    rw [result_bind, result_get, after_get] at h
    rw [after_bind, result_get, after_get]
    dsimp only at h ⊢
    split
    · next hnone =>
      rw [hnone] at h
      cases h
    · next row hrow => exact bumped_setGlobal hs hrow

/-- The increments of a list of entities: each as often as the list names it. -/
theorem bumpAll_spec : ∀ {l : List Entity} {s : RuntimeState τ ω}, ¬ s.phase.isOpen →
    (bumpAll l).result s = .ok () → Bumped s ((bumpAll l).after s) fun e => l.count e
  | [], s, hs, _ => by simpa [bumpAll] using (Unmoved.refl s).bumped hs
  | e :: l, s, hs, h => by
    unfold bumpAll at h ⊢
    obtain ⟨_, hbump, hrest, hafter⟩ := bind_result_ok h
    have h₁ := bump_spec hs hbump
    have h₂ := bumpAll_spec h₁.closed hrest
    rw [hafter]
    convert h₁.trans h₂ using 2 with x
    by_cases hx : x = e
    · subst hx
      rw [List.count_cons_self, if_pos rfl, Nat.add_comm]
    · rw [List.count_cons_of_ne (Ne.symm hx), if_neg hx, Nat.zero_add]

/-! ## The input as a whole -/

theorem partition_key (e : Entity) : partition e.key = match e with
    | .job name => ("job", name)
    | .global name => ("global", name) := by
  cases e with
  | job name => simp [partition, Entity.key, String.toList_append]
  | global name => simp [partition, Entity.key]

theorem revision_key (e : Entity) : s.revision e.key = .ok (s.entityRevision e) := by
  rw [RuntimeState.revision, partition_key]
  cases e with
  | job name => rfl
  | global name => rfl

theorem key_injective : Function.Injective Entity.key := by
  intro e e' h
  have hp : partition e.key = partition e'.key := congrArg partition h
  rw [partition_key, partition_key] at hp
  cases e with
  | job name =>
    cases e' with
    | job name' => rw [(Prod.mk.inj hp).2]
    | global name' => exact absurd (Prod.mk.inj hp).1 (by decide)
  | global name =>
    cases e' with
    | job name' => exact absurd (Prod.mk.inj hp).1 (by decide)
    | global name' => rw [(Prod.mk.inj hp).2]

/-- The entities an input changed, in the order of their keys. -/
def changedEntities (s : RuntimeState τ ω) : List Entity :=
  (moved s.projection s.snapshots).insertionSort (·.key ≤ ·.key)

theorem mem_changedEntities (h : Opened s₀ s) {e : Entity} :
    e ∈ changedEntities s ↔ s.projection e ≠ s₀.projection e := by
  rw [changedEntities, List.mem_insertionSort, mem_moved h.tracks]

theorem changedEntities_nodup : (changedEntities s).Nodup :=
  (List.perm_insertionSort _ _).nodup_iff.mpr moved_nodup

theorem changedEntities_sorted : (changedEntities s).Pairwise (·.key ≤ ·.key) := by
  have : Std.Total fun a b : Entity => a.key ≤ b.key := ⟨fun a b => le_total a.key b.key⟩
  have : IsTrans Entity fun a b => a.key ≤ b.key := ⟨fun _ _ _ hab hbc => le_trans hab hbc⟩
  exact List.pairwise_insertionSort _ _

theorem after_raiseIf {e : Option StoreError} : (raiseIf e : RuntimeM τ ω _).after s = s := by
  cases e with
  | none => rfl
  | some e => rfl

/-- What a commit that returns has done: each of the changed entities is incremented once. -/
theorem commitInput_spec {changed : List String}
    (h : (commitInput : RuntimeM τ ω _).result s = .ok changed) :
    changed = (changedEntities s).map Entity.key ∧
      Bumped s (commitInput.after s) fun e => (changedEntities s).count e := by
  unfold commitInput at h ⊢
  obtain ⟨_, hassemble, h, hafter⟩ := bind_result_ok h
  rw [hafter]
  rw [result_assemble] at hassemble
  rw [after_assemble] at h ⊢
  cases hphase : s.phase.assemble .commitInput with
  | error code => rw [hphase] at hassemble; cases hassemble
  | ok phase =>
    rw [hphase] at h
    -- the input is closed and its snapshots are taken before anything is checked or written
    obtain ⟨s₁, hget, h, hafter₁⟩ := bind_result_ok h
    cases hget
    obtain ⟨_, -, h, hafter₂⟩ := bind_result_ok h
    rw [hafter₁, hafter₂]
    rw [after_modify, after_get] at h ⊢
    obtain ⟨_, -, h, hafter₃⟩ := bind_result_ok h
    rw [hafter₃]
    rw [after_raiseIf] at h ⊢
    obtain ⟨_, hbump, h, hafter₄⟩ := bind_result_ok h
    have hsame : SameRows s { s with phase, snapshots := ∅ } := ⟨fun _ => rfl, rfl, rfl⟩
    have hclosed : ¬ phase.isOpen := AssemblyPhase.not_isOpen_of_commit hphase
    have hspec := bumpAll_spec (s := { s with phase, snapshots := ∅ }) hclosed hbump
    obtain ⟨s₂, hget, h, hafter₅⟩ := bind_result_ok h
    cases hget
    obtain ⟨_, -, h, hafter₆⟩ := bind_result_ok h
    cases h
    rw [hafter₄, hafter₅, hafter₆, after_pure, after_raiseIf, after_get]
    exact ⟨rfl, hspec.closed, fun e => (hspec.projection e).trans (hsame.projection e),
      fun e => by rw [hspec.revision, hsame.entityRevision]; rfl⟩

/-- **One revision for each changed entity.** Between the begin and the commit of an input, let
any calls of the verbs run, each returning or raising. Then each entity's revision has grown by
one if its projection is not the one it had before the input, and is unchanged otherwise; and the
commit returns the keys of the changed entities, each once and in order. -/
theorem commit_revisions (s : RuntimeState τ ω) (verbs : List (Verb τ ω)) (changed : List String)
    (hbegin : (beginInput : RuntimeM τ ω _).result s = .ok ())
    (hcommit : commitInput.result (runVerbs (beginInput.after s) verbs) = .ok changed) :
    let t := commitInput.after (runVerbs (beginInput.after s) verbs)
    (∀ e : Entity, ∃ rev, s.revision e.key = .ok rev ∧
      t.revision e.key = .ok (if t.projection e = s.projection e then rev else rev + 1)) ∧
    (∀ key, key ∈ changed ↔ ∃ e : Entity, e.key = key ∧ t.projection e ≠ s.projection e) ∧
    changed.Nodup ∧ changed.Pairwise (· ≤ ·) := by
  intro t
  have hopen : Opened s (runVerbs (beginInput.after s) verbs) :=
    runVerbs_opened (opened_begin hbegin)
  obtain ⟨hchanged, hbumped⟩ := commitInput_spec hcommit
  have hmem : ∀ e, e ∈ changedEntities (runVerbs (beginInput.after s) verbs) ↔
      t.projection e ≠ s.projection e := by
    intro e
    rw [mem_changedEntities hopen, ← hbumped.projection e]
  refine ⟨fun e => ⟨_, revision_key e, ?_⟩, fun key => ?_, ?_, ?_⟩
  · rw [revision_key, hbumped.revision, hopen.revision,
      changedEntities_nodup.count]
    by_cases he : t.projection e = s.projection e
    · rw [if_pos he, if_neg fun hm => (hmem e).mp hm he, Nat.add_zero]
    · rw [if_neg he, if_pos ((hmem e).mpr he)]
  · rw [hchanged, List.mem_map]
    exact exists_congr fun e => by rw [hmem, and_comm]
  · rw [hchanged]
    exact changedEntities_nodup.map key_injective
  · rw [hchanged, List.pairwise_map]
    exact changedEntities_sorted

/-- An input that starts a member of a box, arms and fires a timer, takes a reservation back and
sets a global to the value it had: the box and its member have changed, and nothing else has. -/
def nightInput : List (Verb Nat Unit) := [
  .startRun "load" "tick" (some "night") false,
  .transition "load" .starting (some 3) none false,
  .enqueueTimer 5 { at_ := 3, kind := .timer, payload := Dict.empty.set "job" (.text "extract") },
  .popTimerDue 6,
  .setGlobal "DAY" "mon",
  .setGlobal "DAY" "sun"]

/-- A store in which the global was set by an earlier input. -/
def evening : RuntimeState Nat Unit :=
  { phase := .live, globals := Dict.empty.set "DAY" { value := "sun", stateRev := 4 } }

theorem commit_revisions_night :
    let t := commitInput.after (runVerbs (beginInput.after evening) nightInput)
    t.projection (.global "DAY") = evening.projection (.global "DAY") ∧
      t.revision "global:DAY" = .ok 4 ∧ t.revision "job:night" = .ok 1 := by
  intro t
  obtain ⟨hrev, hkeys, -, -⟩ := commit_revisions evening nightInput ["job:load", "job:night"] rfl rfl
  have hday : t.projection (.global "DAY") = evening.projection (.global "DAY") := by
    by_contra hne
    have hmem := (hkeys "global:DAY").mpr ⟨.global "DAY", by decide, hne⟩
    exact absurd hmem (by decide)
  have hnight : t.projection (.job "night") ≠ evening.projection (.job "night") := by
    obtain ⟨e, he, hne⟩ := (hkeys "job:night").mp (by decide)
    rwa [show e = .job "night" from key_injective he] at hne
  refine ⟨hday, ?_, ?_⟩
  · obtain ⟨rev, h₀, h₁⟩ := hrev (.global "DAY")
    rw [if_pos hday] at h₁
    exact h₁.trans (h₀.symm.trans rfl)
  · obtain ⟨rev, h₀, h₁⟩ := hrev (.job "night")
    rw [if_neg hnight] at h₁
    have h₂ : evening.revision "job:night" = .ok 0 := rfl
    cases h₂.symm.trans h₀
    exact h₁

end Dsl41.Store
