import Mathlib.Data.Rat.Defs
import Dsl41.Infra.Dict
import Dsl41.StateMachine.Flat

/-!
# The engine and its attempts as charts

`ENGINE_LIFECYCLE` is the engine process and `ATTEMPT` one dispatched run's process. Both are flat
charts; the data their actions write is in the world, by instance. Seconds are rational numbers.

* `lifecycle_flat`, `attempt_flat` — the two charts as tables
-/

namespace Dsl41.Attempts

open Dsl41.Infra Dsl41.StateMachine

/-! ## Records -/

/-- A value of a JSON record. A number that is no integer, a mapping and a list keep their `repr`. -/
inductive Wire where
  | null
  | bool (b : Bool)
  | int (n : Int)
  | float (q : ℚ) (text : String)
  | text (s : String)
  | mapping (fields : List (String × Wire)) (text : String)
  | list (text : String)

/-- A JSON object: the `spawn.json` and the `status.json` of an attempt. -/
abbrev Fields := Dict String Wire

/-- `record.get(name)`. -/
def Fields.value (f : Fields) (name : String) : Wire := (f.get? name).getD .null

/-- `terminated_by`. -/
inductive Terminator where
  | lifeline | stop | wrapper
deriving DecidableEq

/-- `ExitRecord`: the wrapper's record of the command's end. -/
structure ExitRecord where
  exitCode : Option Int := none
  signal : Option Int := none
  terminatedBy : Option Terminator := none
  startedAt : Option String := none
  endedAt : Option String := none
  wrapperOutcome : Option String := none
  cause : Option String := none
  launched : Bool := true
  observed : Option (List (String × Wire)) := none
  error : Option String := none

inductive OutcomeKind where
  | natural | stopped | unobservable | spawnFailed
deriving DecidableEq

/-- `AttemptOutcome`: how an attempt ended. -/
structure AttemptOutcome where
  kind : OutcomeKind
  cause : Option String := none
  record : Option ExitRecord := none
  error : Option String := none
  note : Option String := none

/-- `AttemptRecord`: the data of an attempt instance. -/
structure AttemptRecord where
  cause : Option String := none
  outcome : Option AttemptOutcome := none

/-- `DrainRequest`. -/
structure DrainRequest where
  now : ℚ
  graceTerm : ℚ
  graceKill : ℚ

/-- `DRAIN_MARGIN_S`. -/
def DRAIN_MARGIN : ℚ := 5

/-- The named effects a tier carries out. -/
inductive Intent where
  | journalDraining
  | stopAttempts (cause : String)
  | cancelWatchers
  | armAbortDeadline (deadline : ℚ)
  | recordCleanShutdown
  | recordUncleanShutdown (unsettled : List String)
  | exitProcess (code : Int)
  | stopAttempt (cause : Option String)
  | armRecordTimeout
  | cancelRecordTimeout
  | journalShutdownDuringStartup
  | recordOutcome (outcome : AttemptOutcome)

/-- The payloads of the events, the data of the instances and the intents. -/
inductive Payload where
  | empty
  | request (request : DrainRequest)
  | unsettled (attempts : List String)
  | spawn (spawn : Fields)
  | error (text : Option String)
  | cause (cause : String)
  | exit (record : ExitRecord)
  | given (outcome : Option AttemptOutcome)
  | lifecycle
  | attempt (id : String)
  | intent (i : Intent)

instance : Inhabited Payload := ⟨.empty⟩

def Payload.intent? : Payload → Option Intent
  | .intent i => some i
  | _ => none

/-- The keys of the executor: the one lifecycle instance, and an instance an attempt. -/
inductive Key where
  | engine
  | attempt (id : String)
deriving DecidableEq

/-- The data the actions write: the drain's deadline, and a record an attempt. -/
structure World where
  deadline : Option ℚ := none
  records : String → AttemptRecord := fun _ => {}

def World.setRecord (w : World) (id : String) (record : AttemptRecord) : World :=
  { w with records := Function.update w.records id record }

abbrev Machines := Executor Key Payload World

def Machines.setRecord (m : Machines) (id : String) (record : AttemptRecord) : Machines :=
  { m with records := { m.records with world := m.records.world.setRecord id record } }

abbrev ChartAction := Action Key Payload World

/-! ## The events -/

def REPLAY_DONE : Name := "replay_done"
def STOP_REQUESTED : Name := "stop_requested"
def ALL_ATTEMPTS_SETTLED : Name := "all_attempts_settled"
def ABORT_DEADLINE : Name := "abort_deadline"
def SPAWN_RECORDED : Name := "spawn_recorded"
def SPAWN_FAILED : Name := "spawn_failed"
def STOP : Name := "stop"
def EXIT_RECORDED : Name := "exit_recorded"
def WRAPPER_GONE : Name := "wrapper_gone"
def RECORD_TIMEOUT : Name := "record_timeout"
def ENGINE_DIED : Name := "engine_died"

def ENGINE_STOP : String := "engine_stop"
def WRAPPER_LOST : String := "wrapper_lost"
def ENGINE_DEATH : String := "engine_death"

/-! ## The engine's actions -/

/-- An action that reports intents. -/
def reporting (intents : List Intent) (rearm : List Name := []) : Option (Effects Key Payload) :=
  some { intents := intents.map .intent, rearm }

/-- `_begin_drain`. -/
def beginDrain : ChartAction := fun ctx w =>
  match ctx.event.payload with
  | .request request =>
    let deadline := request.now + request.graceTerm + request.graceKill + DRAIN_MARGIN
    (reporting [.journalDraining, .stopAttempts ENGINE_STOP, .cancelWatchers, .armAbortDeadline deadline],
      { w with deadline := some deadline })
  | _ => (none, w)

/-- `_deadline_now`. -/
def deadlineNow : ChartAction := fun ctx w =>
  match ctx.event.payload with
  | .request request => (reporting [.armAbortDeadline request.now], { w with deadline := some request.now })
  | _ => (none, w)

/-- `_shutdown_during_startup`. -/
def shutdownDuringStartup : ChartAction := fun _ w =>
  (reporting [.journalShutdownDuringStartup, .exitProcess 0], w)

/-- `_clean_shutdown`. -/
def cleanShutdown : ChartAction := fun _ w => (reporting [.recordCleanShutdown, .exitProcess 0], w)

/-- `_unclean_shutdown`. -/
def uncleanShutdown : ChartAction := fun ctx w =>
  match ctx.event.payload with
  | .unsettled attempts => (reporting [.recordUncleanShutdown attempts, .exitProcess 0], w)
  | _ => (none, w)

/-! ## The attempt's actions -/

/-- `_stop`: the cause is kept, and the timer moves to a new generation. -/
def stop : ChartAction := fun ctx w =>
  match ctx.data, ctx.event.payload with
  | .attempt id, .cause cause =>
    (reporting [.stopAttempt (some cause), .armRecordTimeout] [RECORD_TIMEOUT],
      w.setRecord id { w.records id with cause := some cause })
  | _, _ => (none, w)

/-- `_stop_again`. -/
def stopAgain : ChartAction := fun ctx w =>
  match ctx.data with
  | .attempt id => (reporting [.stopAttempt (w.records id).cause, .armRecordTimeout] [RECORD_TIMEOUT], w)
  | _ => (none, w)

/-- `_end`. -/
def ends (w : World) (id : String) (outcome : AttemptOutcome) : Option (Effects Key Payload) × World :=
  (reporting [.recordOutcome outcome, .cancelRecordTimeout],
    w.setRecord id { w.records id with outcome := some outcome })

/-- `outcome_of`. -/
def outcomeOf (record : ExitRecord) (cause : Option String) : AttemptOutcome :=
  match record.terminatedBy with
  | none => { kind := .natural, record := some record }
  | some .lifeline => { kind := .stopped, cause := some "lifeline", record := some record }
  -- `cause or "stop"`: an empty cause is none
  | some .stop => { kind := .stopped, cause := some (((cause.filter (· ≠ "")).getD "stop")), record := some record }
  | some .wrapper => { kind := .spawnFailed, record := some record }

/-- `_end_spawn_failed`. -/
def endSpawnFailed : ChartAction := fun ctx w =>
  match ctx.data, ctx.event.payload with
  | .attempt id, .error error => ends w id { kind := .spawnFailed, error }
  | _, _ => (none, w)

/-- `_end_from_record`. -/
def endFromRecord : ChartAction := fun ctx w =>
  match ctx.data, ctx.event.payload with
  | .attempt id, .exit record => ends w id (outcomeOf record (w.records id).cause)
  | _, _ => (none, w)

/-- `_end_unobservable`. -/
def endUnobservable : ChartAction := fun ctx w =>
  match ctx.data with
  | .attempt id => ends w id { kind := .unobservable, cause := (w.records id).cause }
  | _ => (none, w)

/-- `_end_engine_died`. -/
def endEngineDied : ChartAction := fun ctx w =>
  match ctx.data, ctx.event.payload with
  | .attempt id, .given given =>
    let death : AttemptOutcome :=
      { kind := .unobservable, cause := some ((((w.records id).cause.filter (· ≠ "")).getD ENGINE_DEATH)) }
    ends w id (given.getD death)
  | _, _ => (none, w)

/-! ## The charts -/

def leaf (name : Name) (final : Bool := false) : State := .mk name [] "" "" [] final [] ""

def moves (id source event target : Name) (action : Name := "") : Row := { id, source, event, target, action }

def LIFECYCLE_ROWS : List Row := [
  moves "engine_lifecycle.01" "STARTING" REPLAY_DONE "RUNNING",
  moves "engine_lifecycle.02" "RUNNING" STOP_REQUESTED "DRAINING" "begin_drain",
  { id := "engine_lifecycle.03", source := "DRAINING", event := STOP_REQUESTED, kind := .internal, action := "deadline_now" },
  moves "engine_lifecycle.04" "DRAINING" ALL_ATTEMPTS_SETTLED "STOPPED" "clean_shutdown",
  moves "engine_lifecycle.05" "DRAINING" ABORT_DEADLINE "STOPPED" "unclean_shutdown",
  moves "engine_lifecycle.06" "STARTING" STOP_REQUESTED "STOPPED" "shutdown_during_startup"]

def LIFECYCLE_ACTIONS : List (Name × ChartAction) := [
  ("begin_drain", beginDrain),
  ("shutdown_during_startup", shutdownDuringStartup),
  ("deadline_now", deadlineNow),
  ("clean_shutdown", cleanShutdown),
  ("unclean_shutdown", uncleanShutdown)]

def LIFECYCLE_STATES : List Name := ["STARTING", "RUNNING", "DRAINING", "STOPPED"]

def ENGINE_LIFECYCLE : Statechart Key Payload World where
  name := "engine_lifecycle"
  root := .mk "engine" [.mk "phase" "STARTING"
    [leaf "STARTING", leaf "RUNNING", leaf "DRAINING", leaf "STOPPED" true]] "" "" [] false [] ""
  rows := LIFECYCLE_ROWS
  actions := fun name => List.lookup name LIFECYCLE_ACTIONS
  timeEvents := [{ name := ABORT_DEADLINE }]
  clock := .logical

def ATTEMPT_ROWS : List Row := [
  moves "attempt.01" "SPAWNING" SPAWN_RECORDED "RUNNING",
  moves "attempt.02" "SPAWNING" SPAWN_FAILED "ENDED" "end_spawn_failed",
  moves "attempt.03" "SPAWNING" STOP "STOPPING" "stop",
  moves "attempt.04" "RUNNING" STOP "STOPPING" "stop",
  moves "attempt.05" "RUNNING" EXIT_RECORDED "ENDED" "end_from_record",
  moves "attempt.06" "STOPPING" EXIT_RECORDED "ENDED" "end_from_record",
  moves "attempt.07" "STOPPING" RECORD_TIMEOUT "ENDED" "end_unobservable",
  -- the ladder already runs; the first cause stands
  { id := "attempt.08", source := "STOPPING", event := STOP, kind := .ignored },
  { id := "attempt.09", source := "STOPPING", event := SPAWN_RECORDED, kind := .internal, action := "stop_attempt" },
  moves "attempt.10" "STOPPING" SPAWN_FAILED "ENDED" "end_spawn_failed",
  moves "attempt.11" "SPAWNING" EXIT_RECORDED "ENDED" "end_from_record",
  moves "attempt.12" "SPAWNING" WRAPPER_GONE "ENDED" "end_unobservable",
  moves "attempt.13" "RUNNING" WRAPPER_GONE "ENDED" "end_unobservable",
  moves "attempt.14" "STOPPING" WRAPPER_GONE "ENDED" "end_unobservable",
  moves "attempt.15" "SPAWNING" ENGINE_DIED "ENDED" "end_engine_died",
  moves "attempt.16" "RUNNING" ENGINE_DIED "ENDED" "end_engine_died",
  moves "attempt.17" "STOPPING" ENGINE_DIED "ENDED" "end_engine_died"]

def ATTEMPT_ACTIONS : List (Name × ChartAction) := [
  ("stop", stop),
  ("stop_attempt", stopAgain),
  ("end_spawn_failed", endSpawnFailed),
  ("end_from_record", endFromRecord),
  ("end_unobservable", endUnobservable),
  ("end_engine_died", endEngineDied)]

def ATTEMPT_STATES : List Name := ["SPAWNING", "RUNNING", "STOPPING", "ENDED"]

def ATTEMPT : Statechart Key Payload World where
  name := "attempt"
  root := .mk "attempt" [.mk "phase" "SPAWNING"
    [leaf "SPAWNING", leaf "RUNNING", leaf "STOPPING", leaf "ENDED" true]] "" "" [] false [] ""
  rows := ATTEMPT_ROWS
  actions := fun name => List.lookup name ATTEMPT_ACTIONS
  timeEvents := [{ name := RECORD_TIMEOUT, generation := true }]
  clock := .logical

/-! ## The two tables -/

/-- An action sends nothing, continues nothing and re-arms only its own timers. -/
def Plain (timers : List Name) (action : ChartAction) : Prop :=
  ∀ ctx w fx, (action ctx w).1 = some fx → fx.send = [] ∧ fx.andThen = "" ∧ ∀ t ∈ fx.rearm, t ∈ timers

theorem plain_reporting {intents : List Intent} {rearm timers : List Name} {fx : Effects Key Payload}
    (h : reporting intents rearm = some fx) (hr : ∀ t ∈ rearm, t ∈ timers) :
    fx.send = [] ∧ fx.andThen = "" ∧ ∀ t ∈ fx.rearm, t ∈ timers := by
  cases h
  exact ⟨rfl, rfl, hr⟩

theorem beginDrain_plain : Plain [] beginDrain := by
  intro ctx w fx h
  unfold beginDrain at h
  split at h
  · exact plain_reporting h nofun
  · cases h

theorem deadlineNow_plain : Plain [] deadlineNow := by
  intro ctx w fx h
  unfold deadlineNow at h
  split at h
  · exact plain_reporting h nofun
  · cases h

theorem uncleanShutdown_plain : Plain [] uncleanShutdown := by
  intro ctx w fx h
  unfold uncleanShutdown at h
  split at h
  · exact plain_reporting h nofun
  · cases h

theorem stop_plain : Plain [RECORD_TIMEOUT] stop := by
  intro ctx w fx h
  unfold stop at h
  split at h
  · exact plain_reporting h fun _ h => h
  · cases h

theorem stopAgain_plain : Plain [RECORD_TIMEOUT] stopAgain := by
  intro ctx w fx h
  unfold stopAgain at h
  split at h
  · exact plain_reporting h fun _ h => h
  · cases h

theorem endSpawnFailed_plain : Plain [RECORD_TIMEOUT] endSpawnFailed := by
  intro ctx w fx h
  unfold endSpawnFailed at h
  split at h
  · exact plain_reporting h nofun
  · cases h

theorem endFromRecord_plain : Plain [RECORD_TIMEOUT] endFromRecord := by
  intro ctx w fx h
  unfold endFromRecord at h
  split at h
  · exact plain_reporting h nofun
  · cases h

theorem endUnobservable_plain : Plain [RECORD_TIMEOUT] endUnobservable := by
  intro ctx w fx h
  unfold endUnobservable at h
  split at h
  · exact plain_reporting h nofun
  · cases h

theorem endEngineDied_plain : Plain [RECORD_TIMEOUT] endEngineDied := by
  intro ctx w fx h
  unfold endEngineDied at h
  split at h
  · exact plain_reporting h nofun
  · cases h

theorem lifecycleActions_plain : ∀ p ∈ LIFECYCLE_ACTIONS, Plain [] p.2 := by
  simp only [LIFECYCLE_ACTIONS, List.forall_mem_cons, beginDrain_plain, deadlineNow_plain, uncleanShutdown_plain, true_and]
  exact ⟨fun _ _ _ h => plain_reporting h nofun, fun _ _ _ h => plain_reporting h nofun, nofun⟩

theorem attemptActions_plain : ∀ p ∈ ATTEMPT_ACTIONS, Plain [RECORD_TIMEOUT] p.2 := by
  simp only [ATTEMPT_ACTIONS, List.forall_mem_cons, stop_plain, stopAgain_plain, endSpawnFailed_plain,
    endFromRecord_plain, endUnobservable_plain, endEngineDied_plain, true_and]
  exact nofun

/-- A named action is in the registry, and it is plain. -/
theorem plain_of_lookup {timers : List Name} {l : List (Name × ChartAction)} (hl : ∀ p ∈ l, Plain timers p.2) {name : Name}
    (h : (List.lookup name l).isSome) : ∃ action, List.lookup name l = some action ∧ Plain timers action := by
  obtain ⟨action, haction⟩ := Option.isSome_iff_exists.mp h
  obtain ⟨l₁, l₂, hsplit, -⟩ := List.lookup_eq_some_iff.mp haction
  exact ⟨action, haction, hl (name, action) (by simp [hsplit])⟩

theorem lifecycle_flat : Flat ENGINE_LIFECYCLE LIFECYCLE_STATES where
  root := by decide
  leaf := by decide
  path := by decide
  plain := by decide
  rows := by decide
  moves := by decide
  single := by decide
  choices := rfl
  regions := by decide
  parents := by decide
  actions row hrow hname := by
    have hnamed : ∀ row ∈ LIFECYCLE_ROWS, row.action ≠ "" → (List.lookup row.action LIFECYCLE_ACTIONS).isSome := by decide
    exact plain_of_lookup lifecycleActions_plain (hnamed row hrow hname)

theorem attempt_flat : Flat ATTEMPT ATTEMPT_STATES where
  root := by decide
  leaf := by decide
  path := by decide
  plain := by decide
  rows := by decide
  moves := by decide
  single := by decide
  choices := rfl
  regions := by decide
  parents := by decide
  actions row hrow hname := by
    have hnamed : ∀ row ∈ ATTEMPT_ROWS, row.action ≠ "" → (List.lookup row.action ATTEMPT_ACTIONS).isSome := by decide
    exact plain_of_lookup attemptActions_plain (hnamed row hrow hname)

end Dsl41.Attempts
