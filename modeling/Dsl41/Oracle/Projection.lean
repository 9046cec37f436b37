import Dsl41.Oracle.Identity

/-!
# Rows and instances

A job's state is written twice: the executor moves its instance, and a writer for each fired row
writes its row. An item moves what the chart reads of its own job's row alone (`paints_respected`),
the end of a root item checks the jobs its items reached, and a raise rebuilds the instances from
the rows. So between calls every instance is its row's projection (`instances_project`).

* `Paints` — what an item of a key leaves of the other jobs
* `Pending` — the executor and the rows within a cascade
* `InStep` — the two between root items
-/

namespace Dsl41.Oracle

open Dsl41.Infra Dsl41.Infra.Effect Dsl41.Store
open Dsl41.StateMachine (Name Records Round Instance Executor)

variable {s s' s₀ : OracleStore} {key : Key} {job : String} {e : Machine} {w w' : World}

/-! ## The projection -/

/-- The configuration a job's row projects to. -/
def drawn (s : OracleStore) (job : String) : Finset Name := rowConfiguration (s.row job).toJobFields

/-- The rows of the other jobs project to what they did. -/
def Undrawn (key : Key) (s s' : OracleStore) : Prop := ∀ x, key ≠ .job x → drawn s' x = drawn s x

theorem view_row (w : World) (job : String) : w.view.row job = (w.store.row job).toJobFields := by
  rw [View.row, World.view, Dict.get?_mapValues, RuntimeState.row]
  cases w.store.jobs.get? job with
  | none => rfl
  | some row => rfl

/-- A row write draws a row anew only when it is the moved job's. -/
theorem edits_drawn {v : Verb Instant Scalar} {old new : JobRuntime Instant} (h : v.Edits job old new)
    (hm : ∀ x, movedJob v = some x → job ≠ x) :
    rowConfiguration new.toJobFields = rowConfiguration old.toJobFields := by
  cases v with
  | transition j | moveFlag j | seedJob j | reserve j | takeOverHeld j | releaseReservations j | releaseHeld j =>
    exact absurd h.1 (hm j rfl)
  | clearExitCode | recordResolution | recordIcedOut | voidResolution | dequeueWaiter =>
    obtain ⟨-, rfl⟩ := h
    rfl
  | enqueueWaiter =>
    obtain ⟨-, -, rank, rfl⟩ := h
    rfl
  | startRun j cause box isBox =>
    rcases h with ⟨-, rfl | ⟨period, rfl⟩ | ⟨-, rfl⟩⟩ | ⟨-, rfl⟩
    · rfl
    · rfl
    · rfl
    · rfl
  | _ => exact h.elim

theorem Undrawn.set {new : JobRuntime Instant} (hs : Undrawn key s₀ s)
    (h : key = .job job ∨ rowConfiguration new.toJobFields = drawn s job) :
    Undrawn key s₀ { s with jobs := s.jobs.set job new } := by
  intro x hx
  rw [← hs x hx]
  by_cases hxj : x = job
  · subst hxj
    have hdrawn := h.resolve_left hx
    rw [← hdrawn, drawn, RuntimeState.row, Dict.get?_set, if_pos rfl]
    rfl
  · rw [drawn, drawn, RuntimeState.row, RuntimeState.row, Dict.get?_set, if_neg hxj]

/-- **A write of an item of a key draws no other job's row anew.** -/
theorem keeps_undrawn (s₀ : OracleStore) (verb : Verb Instant Scalar) (h : writesAt key verb = true) :
    Keeps (Undrawn key s₀) verb.call := by
  obtain ⟨hinput, hmoved⟩ : inputVerb verb = true ∧ (movedJob verb).all (fun j => key = .job j) = true := by
    simpa [writesAt] using h
  have hstill : ∀ s s', Still s s' → Undrawn key s₀ s → Undrawn key s₀ s' := by
    intro s s' hs h x hx
    rw [← h x hx, drawn, hs.row]
    rfl
  have hedit : ∀ s job new, Undrawn key s₀ s → s.tombstones.get? job = none → verb.Edits job (s.row job) new →
      Undrawn key s₀ { s with jobs := s.jobs.set job new } := by
    intro s job new hs _ he
    refine hs.set ?_
    by_cases hkey : key = .job job
    · exact Or.inl hkey
    · refine Or.inr (edits_drawn he fun x hx hjob => hkey ?_)
      rw [hx] at hmoved
      rw [hjob]
      exact of_decide_eq_true hmoved
  unfold inputVerb at hinput
  split at hinput
  · next job status keepsHeld =>
    exact keeps_releaseReservations_of hstill (fun s hs ht => hedit s job _ hs ht ⟨rfl, rfl⟩) fun s _ hs => hs
  · cases hinput
  · cases hinput
  · exact verb.keeps_rows hinput hstill hedit

/-- What an item of a key leaves of the other jobs, and of the owner's instances. -/
structure Paints (key : Key) (s s' : OracleStore) : Prop where
  undrawn : Undrawn key s s'
  grown : Grown s s'

theorem writesAt_input {verb : Verb Instant Scalar} (h : writesAt key verb = true) :
    (∃ job status keepsHeld, verb = .releaseReservations job status keepsHeld) ∨
      verb.ofInput = true ∧ verb.movesInstances = false := by
  have hinput : inputVerb verb = true := (Bool.and_eq_true _ _ ▸ h).1
  cases verb with
  | releaseReservations job status keepsHeld => exact Or.inl ⟨_, _, _, rfl⟩
  | moveInstance | restoreInstances => cases hinput
  | _ => exact Or.inr ⟨hinput, rfl⟩

theorem paints_respected (key : Key) : Respected key (Paints key) where
  refl s := ⟨fun _ _ => rfl, .refl s⟩
  trans a b c h h' := ⟨fun x hx => (h'.undrawn x hx).trans (h.undrawn x hx), h.grown.trans h'.grown⟩
  verb s verb hv t ht := by
    refine ⟨keeps_undrawn s verb hv t ht.undrawn, ?_⟩
    rcases writesAt_input hv with ⟨_, _, _, rfl⟩ | ⟨hinput, hmoves⟩
    · exact (parts_grown s).release _ _ _ t ht.grown
    · exact (parts_grown s).verb hinput hmoves t ht.grown

/-- A commit draws nothing anew. -/
theorem keeps_commit_paints (s : OracleStore) : Keeps (Paints key s) RuntimeState.commitInput := by
  intro t ht
  have hundrawn : Keeps (Undrawn key s) RuntimeState.commitInput :=
    keeps_commitInput_of (fun a b hab h x hx => by rw [← h x hx, drawn, hab.row]; rfl)
      fun a _ ha _ => ha.set (Or.inr rfl)
  exact ⟨hundrawn t ht.undrawn, (parts_grown s).commit t ht.grown⟩

/-! ## The executor and the rows -/

/-- The instances of the executor's keys. -/
abbrev Instances := Key → Option (Instance Key Payload World)

/-- The owner has the executor's instances, each of a row, and projects every row but the late
ones. -/
structure Drawn (late : String → Prop) (instances : Instances) (s : OracleStore) : Prop where
  gives : s.jobInstance = some storeInstance
  mirrored : ∀ job inst, instances (.job job) = some inst → s.instances job = some inst.active
  rows : ∀ job inst, instances (.job job) = some inst → (s.jobs.get? job).isSome
  held : ∀ job, (s.jobs.get? job).isSome → (s.instances job).isSome
  owner : ∀ job, ¬ late job → ∀ active, s.instances job = some active → active = drawn s job

variable {late late' : String → Prop} {instances instances' : Instances}

theorem Drawn.mono (h : Drawn late instances s) (hlate : ∀ job, late job → late' job) : Drawn late' instances s :=
  { h with owner := fun job hj => h.owner job fun hl => hj (hlate job hl) }

theorem storeInstance_total (job : String) (row : JobRuntime Instant) : ∃ active, storeInstance job row = .ok active :=
  ⟨_, rfl⟩

/-- The instance of a new row is what the row projects to. -/
theorem fresh_drawn {x : String} {active : Finset Name} (h : Grown s s') (hs : s.jobInstance = some storeInstance)
    (hx : s'.instances x = some active) (hnew : s.instances x ≠ some active) : active = drawn s x := by
  rcases h.fresh x active hx with hold | ⟨hnone, f, hf, hactive⟩
  · exact absurd hold hnew
  · rw [hs] at hf
    cases hf
    cases hactive
    rw [drawn, RuntimeState.row, hnone]
    rfl

/-- Writes that draw at most a late job anew keep the two in step. -/
theorem Drawn.paint (h : Drawn late instances s) (hw : Paints key s s') (hkey : ∀ job, key = .job job → late job) :
    Drawn late instances s' where
  gives := hw.grown.gives.trans h.gives
  mirrored job inst hi := hw.grown.kept job _ (h.mirrored job inst hi)
  rows job inst hi := hw.grown.rows job (h.rows job inst hi)
  held := hw.grown.held storeInstance h.gives storeInstance_total h.held
  owner job hj active ha := by
    rw [hw.undrawn job fun hk => hj (hkey job hk)]
    by_cases hold : s.instances job = some active
    · exact h.owner job hj active hold
    · exact fresh_drawn hw.grown h.gives ha hold

/-- A moved instance mirrored by the owner: its job is late. -/
theorem Drawn.moved (h : Drawn late instances s) {inst : Instance Key Payload World}
    (hown : instances' (.job job) = some inst) (hother : ∀ x ≠ job, instances' (.job x) = instances (.job x))
    (hrow : (s.jobs.get? job).isSome) (hlate : ∀ x, late x ∨ x = job → late' x) :
    Drawn late' instances' { s with instances := Function.update s.instances job (some inst.active) } where
  gives := h.gives
  mirrored x i hi := by
    by_cases hx : x = job
    · subst hx
      cases hown.symm.trans hi
      exact Function.update_self _ _ _
    · exact (Function.update_of_ne hx _ _).trans (h.mirrored x i (hother x hx ▸ hi))
  rows x i hi := by
    by_cases hx : x = job
    · exact hx ▸ hrow
    · exact h.rows x i (hother x hx ▸ hi)
  held x hx := by
    dsimp only at hx ⊢
    by_cases hxj : x = job
    · subst hxj
      simp
    · rw [Function.update_of_ne hxj]
      exact h.held x hx
  owner x hx active ha := by
    have hxj : x ≠ job := fun hxj => hx (hlate x (Or.inr hxj))
    exact h.owner x (fun hl => hx (hlate x (Or.inl hl))) active ((Function.update_of_ne hxj _ _).symm.trans ha)

/-! ## Within a cascade -/

/-- Within a cascade the row of a reached job may not project yet. -/
def Late (instances : Instances) (reached : List String) (job : String) : Prop :=
  job ∈ reached ∧ (instances (.job job)).isSome

/-- The executor and the rows within a cascade. -/
def Pending (instances : Instances) (w : World) : Prop := Drawn (Late instances w.reached) instances w.store

/-- The writes of a job's item, whose instance the owner mirrors already. -/
theorem Pending.perform (h : Pending instances w) {inst : Instance Key Payload World}
    (hown : instances' (.job job) = some inst) (hother : ∀ x ≠ job, instances' (.job x) = instances (.job x))
    (hrow : (w.store.jobs.get? job).isSome)
    (hw : Paints (.job job) { w.store with instances := Function.update w.store.instances job (some inst.active) } w'.store)
    (hr : w'.reached = marked job w.reached) : Pending instances' w' := by
  have hlate : ∀ x, Late instances w.reached x ∨ x = job → Late instances' w'.reached x := by
    intro x hx
    rw [Late, hr]
    by_cases hxj : x = job
    · subst hxj
      exact ⟨mem_marked.mpr (Or.inr rfl), by simp [hown]⟩
    · obtain ⟨hmem, hsome⟩ := hx.resolve_right hxj
      exact ⟨mem_marked.mpr (Or.inl hmem), hother x hxj ▸ hsome⟩
  exact (Drawn.moved h hown hother hrow hlate).paint hw fun x hk => hlate x (Or.inr (Key.job.inj hk).symm)

/-- Records of the cascade move neither the rows nor the instances. -/
theorem Pending.booked (h : Pending instances w) (hw : w.Booked w') : Pending instances w' := by
  obtain ⟨cascade, raised, rfl⟩ := hw
  exact h

/-- A microstep's hook, over the records its rows left. -/
theorem Pending.hook {out : Out} {r : Records Key Payload World} (h : Pending instances r.world)
    (hother : ∀ key ≠ out.key, r.instances key = instances key)
    (hold : ∀ job, out.key = .job job → (instances (.job job)).isSome ∧ (r.instances (.job job)).isSome)
    (hraised : (Oracle.hook out r).raised = none) : Pending r.instances (Oracle.hook out r) := by
  obtain ⟨hok, hhook⟩ := hook_performed hraised
  rw [hhook]
  cases hkey : out.key with
  | scan =>
    rw [perform_scan hkey]
    have hwrote := (keeps_countItem.bind fun _ => keeps_applyIntents (paints_respected .scan) out.intents) r.world
      (.refl (paints_respected .scan) _)
    have hsame : ∀ job, r.instances (.job job) = instances (.job job) := fun job =>
      hother (.job job) (by rw [hkey]; exact nofun)
    have hdrawn : Drawn (Late r.instances r.world.reached) r.instances r.world.store :=
      ⟨h.gives, fun job inst hi => h.mirrored job inst (hsame job ▸ hi), fun job inst hi => h.rows job inst (hsame job ▸ hi),
        h.held, fun job hj => h.owner job fun hl => hj ⟨hl.1, hsame job ▸ hl.2⟩⟩
    rw [Pending, hwrote.reached]
    exact hdrawn.paint hwrote.store nofun
  | job job =>
    obtain ⟨⟨inst₀, hinst₀⟩, ⟨inst, hinst⟩⟩ := (hold job hkey).imp Option.isSome_iff_exists.mp Option.isSome_iff_exists.mp
    have hactive : ((r.instances (.job job)).map (·.active)).getD ∅ = inst.active := by rw [hinst]; rfl
    rw [hkey, hactive, perform_job hkey] at hok
    rw [hactive, perform_job hkey]
    obtain ⟨_, -, hok, hafter⟩ := bind_result_ok hok
    rw [hafter]
    have hmirror : (mirror job inst.active).after r.world = { r.world with store :=
        { r.world.store with instances := Function.update r.world.store.instances job (some inst.active) } } := by
      rw [mirror, after_onStore, RuntimeState.moveInstance, after_modify]
    rw [hmirror] at hok ⊢
    have hpaints := performed_advances (paints_respected (.job job)) out inst.active _
      (.refl (paints_respected (.job job)) { r.world with store :=
        { r.world.store with instances := Function.update r.world.store.instances job (some inst.active) } })
    have hreached := performed_reached hok
    refine h.perform hinst (fun x hx => hother (.job x) fun hk => ?_) (h.rows job inst₀ hinst₀) hpaints.store hreached
    exact hx (Key.job.inj (hk.trans hkey))

/-- **A turn keeps the executor and the rows in step but for what it reached.** -/
theorem Pending.turn {x : Executor Key Payload World} (he : e.Charted) (hround : Round Oracle.hook e.executor x)
    (h : Pending e.executor.records.instances e.world) (hraised : x.records.world.raised = none) :
    Pending x.records.instances x.records.world := by
  cases hround with
  | pooled _ _ => exact h
  | @gone item rest inst hw hi hk hg =>
    have hworld : Pending e.executor.records.instances e.executor.records.world := h
    refine hworld.hook (fun _ _ => rfl) (fun job hjob => ?_) hraised
    have hitem : item.key = .job job := hjob
    rw [hitem] at hi
    exact ⟨by simp [hi], by simp [hi]⟩
  | @fired item rest inst inst' r out q rows cs left entered sends hw hi ha hf =>
    have hbooked : e.world.Booked r.world := hf.calls.relates .refl (fun _ _ _ => .trans)
      fun name act hact ctx w => ((he.charts item.key inst hi).1.neat name act hact ctx w).1
    refine (h.booked hbooked).hook (fun k hk => hf.other k (hf.key ▸ hk)) (fun job hjob => ?_) hraised
    have hitem : item.key = .job job := hf.key ▸ hjob
    have hown := hf.own
    rw [hitem] at hi hown
    exact ⟨by simp [hi], by simp [hown]⟩

/-! ## A root item -/

/-- The executor and the rows between root items: no row is late, and the scan is at rest. -/
structure InStep (e : Machine) : Prop where
  drawn : Drawn (fun _ => False) e.executor.records.instances e.world.store
  idle : (e.executor.records.instances .scan).map (·.active) = some SCAN_IDLE

/-- Instances rebuilt from the rows are in step with them. -/
theorem rebuilt_inStep (hx : e.executor = rebuilt e.world) (hgives : e.world.store.jobInstance = some storeInstance)
    (hrestored : Restored storeInstance e.world.store) : InStep e := by
  have hinst : ∀ job inst, e.executor.records.instances (.job job) = some inst →
      ∃ row, e.world.store.jobs.get? job = some row ∧ inst.active = rowConfiguration row.toJobFields := by
    intro job inst hi
    rw [hx] at hi
    obtain ⟨fields, hfields, rfl⟩ := Option.map_eq_some_iff.mp hi
    rw [World.view, Dict.get?_mapValues] at hfields
    obtain ⟨row, hrow, rfl⟩ := Option.map_eq_some_iff.mp hfields
    exact ⟨row, hrow, rfl⟩
  refine ⟨⟨hgives, fun job inst hi => ?_, fun job inst hi => ?_, fun job hrow => ?_, fun job _ active ha => ?_⟩, ?_⟩
  · obtain ⟨row, hrow, hactive⟩ := hinst job inst hi
    rw [hrestored job, hrow, hactive]
    rfl
  · obtain ⟨row, hrow, -⟩ := hinst job inst hi
    simp [hrow]
  · obtain ⟨row, hrow⟩ := Option.isSome_iff_exists.mp hrow
    rw [hrestored job, hrow]
    rfl
  · rw [hrestored job] at ha
    obtain ⟨row, hrow, hactive⟩ := Option.bind_eq_some_iff.mp ha
    cases hactive
    rw [drawn, RuntimeState.row, hrow]
    rfl
  · rw [hx]
    rfl

/-- **A cascade that ends without a raise leaves no row late but those it reached.** -/
theorem drive_pending : ∀ {fuel : Nat} {e : Machine}, e.Charted → Pending e.executor.records.instances e.world →
    (drive fuel).result e = .ok () → ((drive fuel).after e).Charted ∧
      Pending ((drive fuel).after e).executor.records.instances ((drive fuel).after e).world
  | 0, _, _, _, h => nomatch h
  | fuel + 1, e, he, hpending, h => by
    rw [drive, result_bind, result_get, after_get] at h
    rw [drive, after_bind, result_get, after_get]
    dsimp only at h ⊢
    cases hturn : e.executor.turn Oracle.hook with
    | error err =>
      rw [hturn] at h
      cases h
    | ok taken =>
      rw [hturn] at h
      cases taken with
      | none => exact ⟨he, hpending⟩
      | some pair =>
        obtain ⟨x, out⟩ := pair
        obtain ⟨hcharted, hround⟩ := turn_charted he hturn
        dsimp only at h ⊢
        rw [result_bind, result_modify, after_modify] at h
        rw [after_bind, result_modify, after_modify]
        dsimp only at h ⊢
        cases hraised : x.records.world.raised with
        | some err =>
          rw [hraised] at h
          cases h
        | none =>
          rw [hraised] at h
          exact drive_pending hcharted (Pending.turn he hround hpending hraised) h

/-- What the check of the reached jobs finds. -/
theorem checked_drawn (h : Pending e.executor.records.instances e.world) (hok : reachedProblem e = none) :
    Drawn (fun _ => False) e.executor.records.instances e.world.store := by
  refine { h with owner := fun job _ active ha => ?_ }
  by_cases hlate : Late e.executor.records.instances e.world.reached job
  · obtain ⟨hmem, hsome⟩ := hlate
    obtain ⟨inst, hinst⟩ := Option.isSome_iff_exists.mp hsome
    obtain ⟨row, hrow⟩ := Option.isSome_iff_exists.mp (h.rows job inst hinst)
    have hfields : e.world.view.rows.get? job = some row.toJobFields := by
      rw [World.view, Dict.get?_mapValues, hrow]
      rfl
    have hchecked := List.findSome?_eq_none_iff.mp hok job ((List.mem_insertionSort _).mpr hmem)
    rw [hfields, hinst] at hchecked
    have hproject : inst.active = rowConfiguration row.toJobFields := by
      by_contra hne
      simp [hne] at hchecked
    rw [h.mirrored job inst hinst] at ha
    cases ha
    rw [hproject, drawn, RuntimeState.row, hrow]
    rfl
  · exact h.owner job hlate active ha

theorem checkReached_eq (e : Machine) :
    checkReached.result e = (match reachedProblem e with
      | some err => throw err
      | none => pure () : MachineM Unit).result (e.setWorld { e.world with reached := [] }) ∧
    checkReached.after e = (match reachedProblem e with
      | some err => throw err
      | none => pure () : MachineM Unit).after (e.setWorld { e.world with reached := [] }) := ⟨rfl, rfl⟩

theorem checkReached_ok (hok : checkReached.result e = .ok ()) :
    reachedProblem e = none ∧ checkReached.after e = e.setWorld { e.world with reached := [] } := by
  obtain ⟨hresult, hafter⟩ := checkReached_eq e
  cases hproblem : reachedProblem e with
  | some err =>
    rw [hresult, hproblem] at hok
    cases hok
  | none =>
    rw [hproblem] at hafter
    exact ⟨rfl, hafter⟩

theorem checkScanIdle_ok (hok : checkScanIdle.result e = .ok ()) :
    (e.executor.records.instances .scan).map (·.active) = some SCAN_IDLE ∧ checkScanIdle.after e = e := by
  rw [checkScanIdle, result_bind, result_get, after_get] at hok
  rw [checkScanIdle, after_bind, result_get, after_get]
  dsimp only at hok ⊢
  split at hok
  · next inst hinst =>
    split at hok
    · cases hok
    · next hidle =>
      simp only [hinst, if_neg hidle]
      exact ⟨congrArg some (not_not.mp hidle), rfl⟩
  · cases hok

/-- **A root item that returns leaves the executor and the rows in step.** -/
theorem runItem_inStep {event : StateMachine.Event Payload} (he : e.Charted) (h : InStep e)
    (hok : (runItem key event).result e = .ok ()) : InStep ((runItem key event).after e) := by
  rw [runItem, result_bind, result_get, after_get] at hok
  rw [runItem, after_bind, result_get, after_get]
  dsimp only at hok ⊢
  cases hpost : e.executor.post key event with
  | error err =>
    rw [hpost] at hok
    cases hok
  | ok x =>
    obtain ⟨hprompt, hrecords⟩ := he.post hpost
    rw [hpost] at hok
    obtain ⟨_, -, hok, hafter⟩ := bind_result_ok hok
    obtain ⟨_, hdrive, hok, hafter'⟩ := bind_result_ok hok
    obtain ⟨_, hreached, hidle, hafter''⟩ := bind_result_ok hok
    have hworld : (e.setExecutor x).world = e.world := congrArg (·.world) hrecords
    have hcharted : (e.setExecutor x).Charted := by
      unfold Machine.Charted
      rwa [hworld]
    have hpending : Pending (e.setExecutor x).executor.records.instances (e.setExecutor x).world := by
      rw [hworld, show (e.setExecutor x).executor.records.instances = e.executor.records.instances from
        congrArg (·.instances) hrecords]
      exact h.drawn.mono nofun
    obtain ⟨-, hdriven⟩ := drive_pending hcharted hpending hdrive
    obtain ⟨hnone, hchecked⟩ := checkReached_ok hreached
    obtain ⟨hscan, hrest⟩ := checkScanIdle_ok hidle
    dsimp only
    rw [hafter, hafter', hafter'', hrest]
    refine ⟨?_, hscan⟩
    rw [hchecked]
    have hdrawn := checked_drawn hdriven hnone
    exact hdrawn

/-- The owner keeps what gives a row its instance. -/
theorem gives_closed : Closed Onward fun e => e.world.store.jobInstance = some storeInstance where
  respected := onward_respected .scan
  commit _ := keeps_commit_onward
  rebuild _ := Verb.keeps_onward (v := .restoreInstances) rfl
  world _ _ h hw := hw.store.gives.trans h
  executor _ _ h hx := (congrArg (fun w => w.store.jobInstance) hx).trans h
  turn _ _ h he hround := (round_advances onward_respected onward_mirror he hround).store.gives.trans h

/-- Instances rebuilt from the rows, the owner's and then the executor's. -/
theorem rebuild_returns (hgives : e.world.store.jobInstance = some storeInstance) : Returns (do
    onWorld (onStore RuntimeState.restoreInstances)
    modify fun e => Machine.setExecutor e (rebuilt (Machine.world e))) e () InStep := by
  obtain ⟨hok, instances, hafter, hrestored⟩ := restoreInstances_spec storeInstance_total hgives
  refine (returns_onStore hok).bind fun e' he' => returns_modify (rebuilt_inStep rfl ?_ ?_)
  · rw [he', hafter]
    exact hgives
  · rw [he', hafter]
    exact hrestored

/-- **A recovery puts the executor back in step with the rows.** -/
theorem recover_inStep (hgives : e.world.store.jobInstance = some storeInstance) : InStep (recover.after e) := by
  rw [recover, changeWorld, after_bind, result_modify, after_modify]
  refine (rebuild_returns ?_).2
  exact hgives

/-- The executor is prompt, and in step with the rows. -/
def Stepped (e : Machine) : Prop := e.Charted ∧ InStep e

theorem stepped_follows : Follows (Paints .scan) Stepped := fun _ _ h hw =>
  ⟨setWorld_charted h.1 hw.catalog, h.2.drawn.paint hw.store nofun, h.2.idle⟩

/-- **A root item leaves the executor and the rows in step, whether it returns or raises.** -/
theorem keeps_rootItem (key : Key) (event : StateMachine.Event Payload) :
    Keeps Stepped (recovering (runItem key event)) := by
  intro e ⟨he, h⟩
  obtain ⟨hcharted, hgives⟩ := keeps_runItem gives_closed key event e ⟨he, h.drawn.gives⟩
  rw [recovering, after_bind, result_get, after_get]
  dsimp only
  rw [after_bind, result_modify, after_modify]
  dsimp only
  cases hok : (runItem key event).result e with
  | ok _ => exact ⟨hcharted, runItem_inStep he h hok⟩
  | error err =>
    dsimp only
    rw [after_bind]
    have hrecovered : Stepped (recover.after ((runItem key event).after e)) :=
      ⟨(keeps_recover gives_closed _ ⟨hcharted, hgives⟩).1, recover_inStep hgives⟩
    split
    · exact hrecovered
    · exact hrecovered

theorem keeps_dispatched (key : Key) (job : String) (event : StateMachine.Event Payload) (cause : String) :
    Keeps Stepped (dispatchRoot key job event cause) := by
  have hchange : ∀ f : World → World, (∀ w, (f w).tables = w.tables ∧ (f w).store = w.store) →
      Keeps Stepped (changeWorld f) := fun f => keeps_changeWorld stepped_follows (paints_respected .scan).refl
  refine Keeps.bind (hchange _ ?_) fun _ => (keeps_rootItem key event).bind fun _ => hchange _ ?_
  · exact fun _ => ⟨rfl, rfl⟩
  · exact fun _ => ⟨rfl, rfl⟩

/-- An instance restored from its row is in step with it. -/
theorem restored_inStep {x : Executor Key Payload World} (h : Stepped e) (hrow : (e.world.store.jobs.get? job).isSome)
    (hx : e.executor.restore (.job job) JOB (rowConfiguration (e.world.view.row job))
      (.data (e.world.view.jobData job)) = .ok x) : Stepped (e.setExecutor x) := by
  obtain ⟨hown, hother, hworld⟩ := StateMachine.Executor.restore_instances hx
  refine ⟨(gives_closed.restored ⟨h.1, h.2.drawn.gives⟩ hx).1, ?_, ?_⟩
  · rw [show (e.setExecutor x).world = e.world from hworld]
    refine { h.2.drawn with mirrored := fun y inst hi => ?_, rows := fun y inst hi => ?_ }
    · by_cases hy : y = job
      · subst hy
        obtain ⟨active, hactive⟩ := Option.isSome_iff_exists.mp (h.2.drawn.held y hrow)
        rw [hactive, h.2.drawn.owner y id active hactive, drawn, ← view_row]
        rw [show x.records.instances (.job y) = some inst from hi] at hown
        exact hown.symm
      · exact h.2.drawn.mirrored y inst ((hother _ fun hk => hy (Key.job.inj hk)).symm.trans hi)
    · by_cases hy : y = job
      · exact hy ▸ hrow
      · exact h.2.drawn.rows y inst ((hother _ fun hk => hy (Key.job.inj hk)).symm.trans hi)
  · exact (congrArg _ (hother .scan nofun)).trans h.2.idle

/-- **An input conserves the step between the executor and the rows.** -/
theorem stepped_conserved : Conserved (Paints .scan) Stepped where
  respected := paints_respected .scan
  commit := keeps_commit_paints
  world := stepped_follows
  restored _ _ _ h hrow hx := restored_inStep h hrow hx
  root := keeps_dispatched

/-! ## Runs of calls -/

theorem swapped_inStep {settings : Settings} {e' : Machine} (h : Swapped settings e e')
    (hgives : e.world.store.jobInstance = some storeInstance) : InStep e' :=
  rebuilt_inStep h.executor (h.gives.trans hgives) h.restored

theorem InStep.call {s₀ : OracleStore} (h : InStep e) (hsound : Sound s₀ e) (c : Call) : InStep (c.run.after e) := by
  cases c with
  | input fuel at_ evs =>
    rw [Call.run, after_discard]
    exact (stepped_conserved.input fuel at_ evs e ⟨hsound.charted, h⟩).2
  | swap settings =>
    rw [Call.run, after_discard]
    rcases replaceCatalog_cases settings hsound.apart hsound.gives with ⟨-, hstay⟩ | ⟨-, hswapped⟩
    · rw [hstay]
      exact h
    · exact swapped_inStep hswapped hsound.gives

theorem InStep.after {s₀ : OracleStore} {calls : List Call} {e' : Machine} (h : InStep e) (hsound : Sound s₀ e)
    (hafter : After e calls e') : InStep e' := by
  induction hafter with
  | none => exact h
  | call before _ ih => exact ih.call (hsound.after before) _

/-- An oracle is constructed in step. -/
theorem construct_inStep {settings : Settings} {carried : Option Carried}
    (hcarried : ∀ c, carried = some c → c.Apart) (h : construct settings carried = .ok e) : InStep e := by
  unfold construct at h
  dsimp only at h
  split at h
  · cases h
  next hok =>
    cases h
    obtain ⟨-, hgives, hrestored⟩ := genesis_spec hcarried hok
    exact rebuilt_inStep rfl hgives hrestored

/-- **Between calls every instance is its row's projection.** Through any run of inputs and swaps,
those that raised among them, each job's instance in the executor is of the job chart, has a row,
and is in the configuration the row projects to, as the owner's instance is; the scan is at rest;
and the check of a commit would find nothing wrong with any row. -/
theorem instances_project {settings : Settings} {carried : Option Carried} {e₀ : Machine} {calls : List Call}
    (hcarried : ∀ c, carried = some c → c.Apart) (h₀ : construct settings carried = .ok e₀)
    (h : After e₀ calls e) :
    (∀ job inst, e.executor.records.instances (.job job) = some inst → inst.chart = JOB ∧
      ∃ row, e.world.store.jobs.get? job = some row ∧ inst.active = rowConfiguration row.toJobFields ∧
        e.world.store.instances job = some inst.active) ∧
    (e.executor.records.instances .scan).map (·.active) = some SCAN_IDLE ∧
    ∀ entity, e.world.store.instanceProblem storeInstance entity = none := by
  have hsound := (construct_sound hcarried h₀).after h
  have hstep := (construct_inStep hcarried h₀).after (construct_sound hcarried h₀) h
  refine ⟨fun job inst hi => ⟨(hsound.charted.charts _ inst hi).1.1, ?_⟩, hstep.idle, fun entity => ?_⟩
  · obtain ⟨row, hrow⟩ := Option.isSome_iff_exists.mp (hstep.drawn.rows job inst hi)
    have hmirror := hstep.drawn.mirrored job inst hi
    refine ⟨row, hrow, (hstep.drawn.owner job id _ hmirror).trans ?_, hmirror⟩
    rw [drawn, RuntimeState.row, hrow]
    rfl
  · cases entity with
    | global name => rfl
    | job name =>
      rw [RuntimeState.instanceProblem]
      cases hrow : e.world.store.jobs.get? name with
      | none => rfl
      | some row =>
        obtain ⟨active, hactive⟩ := Option.isSome_iff_exists.mp (hstep.drawn.held name (by simp [hrow]))
        have hdrawn := hstep.drawn.owner name id active hactive
        rw [drawn, RuntimeState.row, hrow] at hdrawn
        rw [hactive]
        exact if_pos hdrawn

/-- The instance of a job that ran, between two calls. -/
theorem instances_project_started :
    ∃ e, After (fresh solo) [soloStart 5] e ∧
      ∃ inst row, e.executor.records.instances (.job "a") = some inst ∧ e.world.store.jobs.get? "a" = some row ∧
        row.status = .running ∧ inst.active = rowConfiguration row.toJobFields := by
  obtain ⟨e, he, hstate⟩ := Option.any_eq_true _ _ |>.mp (by decide +kernel :
    (returned [soloStart 5] (fresh solo)).any (fun e =>
      (e.executor.records.instances (.job "a")).isSome &&
        (e.world.store.jobs.get? "a").any fun row => row.status = .running) = true)
  rw [Bool.and_eq_true] at hstate
  obtain ⟨inst, hinst⟩ := Option.isSome_iff_exists.mp hstate.1
  obtain ⟨row, hrow, hstatus⟩ := (Option.any_eq_true _ _).mp hstate.2
  have h := after_returned he
  obtain ⟨-, row', hrow', hactive, -⟩ := (instances_project (by simp) (construct_fresh (by decide +kernel)) h).1 "a" inst hinst
  rw [hrow] at hrow'
  cases hrow'
  exact ⟨e, h, inst, row, hinst, hrow, of_decide_eq_true hstatus, hactive⟩

end Dsl41.Oracle
