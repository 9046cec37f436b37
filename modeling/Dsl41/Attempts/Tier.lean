import Dsl41.Infra.Effect
import Dsl41.Attempts.Charts

/-!
# The attempt tier and the engine tier

The two tiers over their executor. A call posts the events an observation implies and carries out
the intents of each macrostep. What the world answers is `Reads`, what is asked of it goes to `log`.

A ladder is a task of its own: `tasks` holds every task started, and the calls of the loop move one
each. Where a call hands over to the engine (`record_outcome`, `on_ladder_done`), the engine may
make any calls before that call goes on, so what is left of it is kept in `owed`, innermost first.
-/

namespace Dsl41.Attempts

open Dsl41.Infra Dsl41.Infra.Effect Dsl41.StateMachine

/-! ## Records of the wrapper -/

/-- `str(value)`. -/
def Wire.str : Wire → String
  | .null => "None"
  | .bool b => if b then "True" else "False"
  | .int n => toString n
  | .float _ shown | .text shown | .mapping _ shown | .list shown => shown

def Wire.text? : Wire → Option String
  | .text s => some s
  | _ => none

/-- `isinstance(value, int)`: a truth value is an integer too. -/
def Wire.int? : Wire → Option Int
  | .int n => some n
  | .bool b => some (if b then 1 else 0)
  | _ => none

def Wire.number? : Wire → Option ℚ
  | .float q _ => some q
  | w => w.int?.map fun n : Int => (n : ℚ)

/-- `LIFELINE_CAUSE`. -/
def LIFELINE_CAUSE : String := "parent lost"

/-- `SPAWN_RECORD_FAILED`. -/
def SPAWN_RECORD_FAILED : String := "spawn record write failed"

/-- How a `status.json` says that the command was ended. -/
def terminatedBy (status : Fields) (stopInProgress : Bool) : Option Terminator :=
  let outcome := (status.value "outcome").text?
  let cause := status.value "cause"
  if (outcome = some "exited" ∨ outcome = some "signaled") ∧ stopInProgress then some .stop
  else if outcome = some "terminated" ∧ cause.text? = some LIFELINE_CAUSE then some .lifeline
  else if outcome = some "terminated" ∧ SPAWN_RECORD_FAILED.toList.isPrefixOf cause.str.toList then some .wrapper
  else if outcome = some "spawn_failed" then some .wrapper
  else none

/-- `exit_record_from_status`. -/
def exitRecordFromStatus (status : Fields) (stopInProgress : Bool) (spawn : Option Fields) : ExitRecord where
  exitCode := (status.value "exit_code").int?
  signal := (status.value "signal").int?
  terminatedBy := terminatedBy status stopInProgress
  startedAt := spawn.bind fun spawn => (spawn.value "started_at").text?
  endedAt := (status.value "ended_at").text?
  wrapperOutcome := some (status.value "outcome").str
  cause := match status.value "cause" with
    | .null => none
    | cause => some cause.str
  -- the wrapper never launched the command: its one record with this outcome
  launched := (status.value "outcome").text? ≠ some "spawn_failed"
  observed := match status.value "observed" with
    | .mapping fields _ => some fields
    | _ => none
  error := match status.value "error" with
    | .null => none
    | error => some error.str

/-- A command's process group and its leader's start token. -/
abbrev Group := Int × String

/-- `command_group`. -/
def commandGroup (spawn : Option Fields) : Option Group := do
  let spawn ← spawn
  let pgid ← (spawn.value "command_pgid").int?
  let token ← (spawn.value "command_start_time").text?
  if (spawn.value "command_pid").number? = some (pgid : ℚ) then some (pgid, token) else none

/-- `NO_GROUP`. -/
def NO_GROUP : Int := 0

/-! ## The state -/

/-- `_Attempt`: the tier's own facts about one attempt. `ladder` is the number of its task. -/
structure Attempt where
  spawn : Option Fields := none
  ladder : Option Nat := none
  ladderPending : Bool := false
  planDone : Bool := false
  survived : Bool := false
  failed : Bool := false
  quiet : Bool := false
  awaitingSpawn : Bool := false

/-- A ladder's task: up to its KILL, at the survivor verdict, over with its callback to come, and
closed by its callback or by a cancel. -/
inductive Task where
  | climbing (group : Group) (generation : Int)
  | surviving (group : Group)
  | finished (error : Option String)
  | closed

/-- What is asked of the world. -/
inductive Effect where
  | killWrapper (attempt : String)
  | armTimer (attempt : String) (generation : Int) (delay : ℚ)
  | cancelTimer (attempt : String)
  | recordOutcome (attempt : String) (outcome : AttemptOutcome)
  | ladderFailed (attempt error : String)
  | commandSurvived (attempt : String)
  | journalDraining
  | cancelWatchers
  | armAbortDeadline (deadline : ℚ)
  | recordCleanShutdown
  | recordUncleanShutdown (unsettled : List String)
  | journalShutdownDuringStartup
  | exitProcess (code : Int)

/-- What is left of a call that handed over to the engine. -/
inductive Owed where
  | cancelTimer (attempt : String)
  | settled

/-- The two tiers, with the timers they armed and the graces. -/
structure Tiers where
  machines : Machines
  attempts : Dict String Attempt := ∅
  tasks : List (String × Task) := []
  lateRecords : Dict String (List ExitRecord) := ∅
  timers : Dict String Int := ∅
  replayed : Bool := false
  owed : List Owed := []
  log : List Effect := []
  graceTerm : ℚ := 10
  graceKill : ℚ := 5

/-- What the world answers within one call. A command is read twice in one call at most: for a
verdict, and for what is left of it. -/
structure Reads where
  spool : String → Option Fields × Option Fields := fun _ => (none, none)
  commandAlive : Group → Bool := fun _ => false
  left : Group → Bool := fun _ => false
  /-- None where nothing can tell. -/
  unnamedAlive : Option (String → Bool) := none
  /-- The leak is stopped, and a reading that failed holds the attempt. -/
  leaked : String → Bool × Bool := fun _ => (true, false)
  killWrapper : String → Bool := fun _ => false

inductive TierError where
  /-- No attempt of this id was dispatched. -/
  | unknown (attempt : String)
  /-- Its plan or its ladder is not done. -/
  | unfinished (attempt : String)
  | statechart (error : StatechartError)
  | noOutcome (attempt : String)
  | outOfFuel
deriving DecidableEq

abbrev TierM := Infra.Effect TierError Tiers

/-! ## Reads -/

/-- The leaf of an instance. -/
def Tiers.leaf? (e : Tiers) (states : List Name) (key : Key) : Option Name :=
  (e.machines.records.instances key).bind fun inst => states.find? (· ∈ inst.active)

/-- `AttemptTier.state`. -/
def Tiers.state (e : Tiers) (attempt : String) : Name := (e.leaf? ATTEMPT_STATES (.attempt attempt)).getD ""

/-- `EngineTier.state`. -/
def Tiers.engineState (e : Tiers) : Name := (e.leaf? LIFECYCLE_STATES .engine).getD ""

/-- The generation of the record timeout. -/
def Tiers.generation (e : Tiers) (attempt : String) : Int :=
  ((e.machines.records.instances (.attempt attempt)).map fun inst => inst.generations RECORD_TIMEOUT).getD 0

/-- `UNSETTLED`. -/
def UNSETTLED : List Name := ["SPAWNING", "RUNNING", "STOPPING"]

/-- `AttemptTier.held`. -/
def Attempt.held (a : Attempt) : Bool := a.survived || a.failed

/-- `AttemptTier.is_unsettled`. -/
def Tiers.isUnsettled (e : Tiers) (attempt : String) (a : Attempt) : Bool :=
  e.state attempt ∈ UNSETTLED || !a.planDone || a.ladderPending || a.held

/-- `AttemptTier.unsettled`. -/
def Tiers.unsettled (e : Tiers) : List String :=
  (e.attempts.entries.filter fun p => e.isUnsettled p.1 p.2).map Prod.fst

/-! ## Writes -/

def Tiers.tell (e : Tiers) (effect : Effect) : Tiers := { e with log := e.log ++ [effect] }

def logged (effect : Effect) : TierM Unit := modify (·.tell effect)

/-- `_known`. -/
def known (attempt : String) : TierM Attempt := do
  match (← get).attempts.get? attempt with
  | some a => return a
  | none => throw (.unknown attempt)

def Tiers.amend (e : Tiers) (attempt : String) (f : Attempt → Attempt) : Tiers :=
  match e.attempts.get? attempt with
  | some a => { e with attempts := e.attempts.set attempt (f a) }
  | none => e

/-- A write of an attempt's facts. -/
def setKnown (attempt : String) (f : Attempt → Attempt) : TierM Unit := do
  let _ ← known attempt
  modify (·.amend attempt f)

def owe (owed : Owed) : TierM Unit := modify fun e => { e with owed := owed :: e.owed }

/-- `arm_timer`: a timer armed replaces the one of its attempt. -/
def Tiers.arm (e : Tiers) (attempt : String) (generation : Int) : Tiers :=
  { e with timers := e.timers.set attempt generation }.tell (.armTimer attempt generation e.graceKill)

def armTimer (attempt : String) (generation : Int) : TierM Unit := modify (·.arm attempt generation)

/-- `cancel_timer`. -/
def cancelTimer (attempt : String) : TierM Unit := do
  modify fun e => { e with timers := e.timers.erase attempt }
  logged (.cancelTimer attempt)

/-- `create_task`: the attempt's ladder is the new task, and it is pending. -/
def Tiers.startTask (e : Tiers) (attempt : String) (task : Task) : Tiers :=
  { e.amend attempt fun a => { a with ladder := some e.tasks.length, ladderPending := true } with
    tasks := e.tasks ++ [(attempt, task)] }

def startTask (attempt : String) (task : Task) : TierM Unit := do
  let _ ← known attempt
  modify (·.startTask attempt task)

/-- A command outlives its KILL: its attempt is held. -/
def survives (attempt : String) : TierM Unit := do
  setKnown attempt fun a => { a with survived := true }
  logged (.commandSurvived attempt)

/-- `Executor.dispatch`, for its intents. -/
def dispatchEvent (key : Key) (event : Event Payload) : TierM (List Intent) := do
  match (← get).machines.dispatch key event with
  | .error err => throw (.statechart err)
  | .ok none => throw .outOfFuel
  | .ok (some (machines, outcomes)) =>
    modify fun e => { e with machines }
    return (outcomes.flatMap (·.intents)).filterMap Payload.intent?

/-! ## The attempt tier -/

section Attempts

variable (reads : Reads)

/-- `_start_stop`: the ladder on the recorded group; with no `spawn.json` the wrapper's kill, and
the timer at once. -/
def startStop (attempt : String) : TierM Unit := do
  let generation := (← get).generation attempt
  let a ← known attempt
  if a.quiet then pure ()
  else
    match a.spawn with
    | none =>
      logged (.killWrapper attempt)
      setKnown attempt fun a => { a with awaitingSpawn := reads.killWrapper attempt }
      armTimer attempt generation
    | some spawn =>
      match commandGroup (some spawn) with
      | some group => startTask attempt (.climbing group generation)
      | none => armTimer attempt generation

/-- What is left of an attempt's command, as a group to read; none when nothing is. -/
def leftOf (attempt : String) (a : Attempt) : Option Group :=
  match commandGroup a.spawn with
  | some group => if reads.left group then some group else none
  | none =>
    match reads.unnamedAlive with
    | some alive => if alive attempt then some (NO_GROUP, attempt) else none
    | none => none

/-- `_what_is_left`: something left at the record gets the ladder, or its survivor verdict. -/
def whatIsLeft (attempt : String) (outcome : AttemptOutcome) : TierM Unit := do
  let a ← known attempt
  -- a failed ladder stays held; a later record confirms no KILL
  if a.ladderPending || a.failed then pure ()
  else
    match leftOf reads attempt a with
    | none => pure ()
    | some group =>
      let stopped ← (if outcome.kind = .natural then do
          let (stopped, unread) := reads.leaked attempt
          if unread then setKnown attempt fun a => { a with survived := true }
          return stopped
        else return true : TierM Bool)
      if stopped then
        let e : Tiers ← get
        startTask attempt (if a.ladder.isNone then .climbing group (e.generation attempt) else .surviving group)
      else pure ()

/-- `_perform`, for one intent. The wiring runs at `record_outcome`; the cancel after it is owed. -/
def perform (attempt : String) : Intent → TierM Unit
  | .stopAttempt _ => startStop reads attempt
  | .armRecordTimeout => pure ()  -- the stop's ladder arms the timer at its KILL
  | .recordOutcome outcome => do
    whatIsLeft reads attempt outcome
    logged (.recordOutcome attempt outcome)
  | .cancelRecordTimeout => owe (.cancelTimer attempt)
  | _ => throw .outOfFuel  -- no effect for another intent

def performAll (attempt : String) : List Intent → TierM Unit
  | [] => pure ()
  | i :: rest => do
    perform reads attempt i
    performAll attempt rest

/-- `_post`. -/
def post (attempt : String) (event : Event Payload) : TierM Unit := do
  performAll reads attempt (← dispatchEvent (.attempt attempt) event)

/-- `dispatch`: the instance of a new attempt, with a record of its own. -/
def dispatch (attempt : String) : TierM Unit := do
  let e : Tiers ← get
  match (e.machines.setRecord attempt {}).start (.attempt attempt) ATTEMPT (.attempt attempt) with
  | .error err => throw (.statechart err)
  | .ok machines =>
    modify fun e => { e with machines, attempts := e.attempts.set attempt {} }
    match machines.drain with
    | .error err => throw (.statechart err)
    | .ok none => throw .outOfFuel
    | .ok (some (machines, _)) => modify fun e => { e with machines }

/-- `restore_ended`: a closing attempt of an earlier engine, never observed again. -/
def restoreEnded (attempt : String) (outcome : AttemptOutcome) (planDone : Bool) : TierM Unit := do
  let e : Tiers ← get
  let record : AttemptRecord := { cause := outcome.cause, outcome := some outcome }
  match (e.machines.setRecord attempt record).restore (.attempt attempt) ATTEMPT (ATTEMPT.rest "ENDED") (.attempt attempt) with
  | .error err => throw (.statechart err)
  | .ok machines => modify fun e => { e with machines, attempts := e.attempts.set attempt { planDone } }

/-- `restored_stop`: the stop the previous engine was taking; nothing is signalled. -/
def restoredStop (attempt cause : String) : TierM Unit := do
  setKnown attempt fun a => { a with quiet := true }
  (post reads attempt { name := STOP, payload := .cause cause }).ensuring
    (·.amend attempt fun a => { a with quiet := false })

/-- `engine_died`. -/
def engineDied (attempt : String) (outcome : Option AttemptOutcome) : TierM Unit :=
  post reads attempt { name := ENGINE_DIED, payload := .given outcome }

/-- `cleanup`. -/
def cleanup (attempt : String) : TierM Unit := do
  match ((← get).machines.records.world.records attempt).outcome with
  | none => throw (.noOutcome attempt)
  | some outcome => whatIsLeft reads attempt outcome

/-- `spawn_recorded`: the chart takes it once. -/
def spawnRecorded (attempt : String) (spawn : Fields) : TierM Unit := do
  let a ← known attempt
  if a.spawn.isSome then pure ()
  else
    setKnown attempt fun a => { a with spawn := some spawn }
    post reads attempt { name := SPAWN_RECORDED, payload := .spawn spawn }

/-- `status_recorded`. A record for an ended attempt is kept and changes nothing. -/
def statusRecorded (attempt : String) (status : Fields) : TierM Unit := do
  let a ← known attempt
  let e : Tiers ← get
  let record := exitRecordFromStatus status (e.state attempt = "STOPPING") a.spawn
  if e.state attempt = "ENDED" then
    modify fun e => { e with
      lateRecords := e.lateRecords.set attempt ((e.lateRecords.get? attempt).getD [] ++ [record]) }
  post reads attempt { name := EXIT_RECORDED, payload := .exit record }

/-- `spawn_failed`: once `spawn.json` was seen the spawn did not fail. -/
def spawnFailed (attempt : String) (error : Option String) : TierM Unit := do
  let a ← known attempt
  if a.spawn.isSome then pure ()
  else post reads attempt { name := SPAWN_FAILED, payload := .error error }

/-- `stop`. -/
def stopOne (attempt cause : String) : TierM Unit := do
  let _ ← known attempt
  post reads attempt { name := STOP, payload := .cause cause }

/-- A spawn record read now that was not posted yet. -/
def spawnSeen (attempt : String) (a : Attempt) : Option Fields → TierM Unit
  | some spawn => if a.spawn.isNone then spawnRecorded reads attempt spawn else pure ()
  | none => pure ()

/-- `wrapper_exited`, with the verdict for a wrapper that left no record. -/
def wrapperExited (attempt : String) (spawn : Option Fields) : TierM Unit := do
  let a ← known attempt
  spawnSeen reads attempt a spawn
  let a ← known attempt
  match commandGroup a.spawn with
  | none => post reads attempt { name := WRAPPER_GONE, payload := .empty }
  | some group =>
    if reads.commandAlive group then stopOne reads attempt WRAPPER_LOST
    else post reads attempt { name := WRAPPER_GONE, payload := .empty }

def stopEach (cause : String) : List String → TierM Unit
  | [] => pure ()
  | attempt :: rest => do
    stopOne reads attempt cause
    stopEach cause rest

/-- `stop_all`: every attempt not yet ended. -/
def stopAll (cause : String) : TierM Unit := do
  let e : Tiers ← get
  stopEach reads cause (e.attempts.keys.filter fun a => e.state a ∈ UNSETTLED)

/-- The second half of `record_timeout`: a current timer of a stopping attempt whose spool told
nothing new. -/
def timedOut (attempt : String) (generation : Int) : TierM Unit := do
  let a ← known attempt
  let kill := a.awaitingSpawn && a.spawn.isNone
  if kill then logged (.killWrapper attempt)
  if kill && reads.killWrapper attempt then armTimer attempt generation
  else
    match (commandGroup a.spawn).filter reads.commandAlive with
    | some _ => survives attempt
    | none => post reads attempt { name := RECORD_TIMEOUT, payload := .empty, generation := some generation }

/-- `record_timeout`: a current timer of a stopping attempt reads the spool once more first. -/
def recordTimeout (attempt : String) (generation : Int) : TierM Unit := do
  let e : Tiers ← get
  match e.attempts.get? attempt with
  | none => pure ()  -- a forgotten attempt's timer: its cancel raced its fire
  | some a =>
    if e.state attempt = "STOPPING" ∧ generation = e.generation attempt then
      let (spawn, status) := reads.spool attempt
      spawnSeen reads attempt a spawn
      match status with
      | some status => statusRecorded reads attempt status
      | none => if spawn.isSome ∧ a.spawn.isNone then pure () else timedOut reads attempt generation
    else post reads attempt { name := RECORD_TIMEOUT, payload := .empty, generation := some generation }

/-- A timer of the attempt fires, if one is armed. -/
def fires (attempt : String) : TierM Unit := do
  match (← get).timers.get? attempt with
  | none => pure ()
  | some generation =>
    modify fun e => { e with timers := e.timers.erase attempt }
    recordTimeout reads attempt generation

/-- `group_gone`: the hold is lifted; a stopping attempt has its record timeout read once more. -/
def groupGone (attempt : String) : TierM Unit := do
  setKnown attempt fun a => { a with survived := false, failed := false }
  owe .settled
  let e : Tiers ← get
  if e.state attempt = "STOPPING" then recordTimeout reads attempt (e.generation attempt)

/-- `forget`: only an attempt that is settled. -/
def forget (attempt : String) : TierM Unit := do
  let a ← known attempt
  if !a.planDone || a.ladderPending || a.held then throw (.unfinished attempt)
  else
    match (← get).machines.forget (.attempt attempt) with
    | .error err => throw (.statechart err)
    | .ok machines => modify fun e => { e with machines, attempts := e.attempts.erase attempt }

/-! ## The ladder's task -/

/-- A write of a task. -/
def setTask (i : Nat) (attempt : String) (task : Task) : TierM Unit :=
  modify fun e => { e with tasks := e.tasks.set i (attempt, task) }

/-- `_ladder`, once the ladder has ended at its KILL: the timer, or the survivor verdict of an
attempt that ended meanwhile. -/
def climbed (i : Nat) : TierM Unit := do
  let e : Tiers ← get
  match e.tasks[i]? with
  | some (attempt, .climbing group generation) =>
    if e.state attempt ≠ "ENDED" then
      armTimer attempt generation
      setTask i attempt (.finished none)
    else setTask i attempt (.surviving group)
  | _ => pure ()

/-- `_survivor_verdict`, once it is known whether the command outlives its KILL. -/
def judged (i : Nat) (outlives : Bool) : TierM Unit := do
  let e : Tiers ← get
  match e.tasks[i]? with
  | some (attempt, .surviving _) => (if outlives then survives attempt else pure ()) *> setTask i attempt (.finished none)
  | _ => pure ()

/-- A ladder, or the look at what outlives it, raises. -/
def ladderRaises (i : Nat) (error : String) : TierM Unit := do
  let e : Tiers ← get
  match e.tasks[i]? with
  | some (attempt, .climbing _ _) | some (attempt, .surviving _) => setTask i attempt (.finished (some error))
  | _ => pure ()

/-- A ladder that raised leaves its group unproven: its attempt is held. -/
def ladderFailed (attempt : String) : Option String → TierM Unit
  | some error => do
    setKnown attempt fun a => { a with failed := true }
    logged (.ladderFailed attempt error)
  | none => pure ()

/-- `_ladder_done`, up to `on_ladder_done`; then `on_settled` is owed. -/
def ladderDone (i : Nat) : TierM Unit := do
  let e : Tiers ← get
  match e.tasks[i]? with
  | some (attempt, .finished error) =>
    ladderFailed attempt error
    setKnown attempt fun a => { a with ladderPending := false }
    setTask i attempt .closed
    owe .settled
  | _ => pure ()

end Attempts

/-! ## The engine tier -/

section Engine

variable (reads : Reads)

/-- `_perform` of the engine tier. -/
def performEngine : Intent → TierM Unit
  | .journalDraining => logged .journalDraining
  | .stopAttempts cause => stopAll reads cause
  | .cancelWatchers => logged .cancelWatchers
  | .armAbortDeadline deadline => logged (.armAbortDeadline deadline)
  | .recordCleanShutdown => logged .recordCleanShutdown
  | .recordUncleanShutdown unsettled => logged (.recordUncleanShutdown unsettled)
  | .journalShutdownDuringStartup => logged .journalShutdownDuringStartup
  | .exitProcess code => logged (.exitProcess code)
  | _ => throw .outOfFuel  -- no effect for another intent

def performEngineAll : List Intent → TierM Unit
  | [] => pure ()
  | i :: rest => do
    performEngine reads i
    performEngineAll rest

/-- `_settle_check`, and the check after its own post. Nothing an engine's intent does calls
`on_settled`, so the flag that keeps the check out of them is not modelled. -/
def settleCheck : Nat → TierM Unit
  | 0 => throw .outOfFuel
  | n + 1 => do
    let e : Tiers ← get
    if e.engineState ≠ "DRAINING" ∨ e.unsettled ≠ [] then pure ()
    else
      performEngineAll reads (← dispatchEvent .engine { name := ALL_ATTEMPTS_SETTLED, payload := .empty })
      settleCheck n

/-- `_post` of the engine tier. -/
def postEngine (event : Event Payload) : TierM Unit := do
  performEngineAll reads (← dispatchEvent .engine event)
  settleCheck reads 2

/-- `replay_done`: the chart takes it once. -/
def replayDone : TierM Unit := do
  if (← get).replayed then pure ()
  else
    modify fun e => { e with replayed := true }
    postEngine reads { name := REPLAY_DONE, payload := .empty }

/-- `stop_requested`. -/
def stopRequested (request : DrainRequest) : TierM Unit :=
  postEngine reads { name := STOP_REQUESTED, payload := .request request }

/-- `abort_deadline`. -/
def abortDeadline : TierM Unit := do
  let e : Tiers ← get
  postEngine reads { name := ABORT_DEADLINE, payload := .unsettled e.unsettled }

/-- `plan_done`, with the call of `on_settled`. -/
def planDone (attempt : String) : TierM Unit := do
  setKnown attempt fun a => { a with planDone := true }
  settleCheck reads 2

/-- The innermost call goes on. -/
def resume : TierM Unit := do
  match (← get).owed with
  | [] => pure ()
  | owed :: rest =>
    modify fun e => { e with owed := rest }
    match owed with
    | .cancelTimer attempt => cancelTimer attempt
    | .settled => settleCheck reads 2

end Engine

/-! ## The runs -/

/-- The engine tier over an executor of its own. -/
def opened (graceTerm graceKill : ℚ) : Except StatechartError (Option Tiers) := do
  let machines : Machines ← (Executor.idle {}).start .engine ENGINE_LIFECYCLE .lifecycle
  return (← machines.drain).map fun (machines, _) => { machines, graceTerm, graceKill }

/-- The calls on the two tiers, and the steps of the ladders' tasks. -/
inductive Call where
  | dispatch (attempt : String)
  | restoreEnded (attempt : String) (outcome : AttemptOutcome) (planDone : Bool)
  | restoredStop (attempt cause : String)
  | engineDied (attempt : String) (outcome : Option AttemptOutcome)
  | cleanup (attempt : String)
  | spawnRecorded (attempt : String) (spawn : Fields)
  | statusRecorded (attempt : String) (status : Fields)
  | spawnFailed (attempt : String) (error : Option String)
  | wrapperExited (attempt : String) (spawn : Option Fields)
  | stop (attempt cause : String)
  | fires (attempt : String)
  | groupGone (attempt : String)
  | forget (attempt : String)
  | climbed (task : Nat)
  | judged (task : Nat) (outlives : Bool)
  | ladderRaises (task : Nat) (error : String)
  | ladderDone (task : Nat)
  | replayDone
  | stopRequested (request : DrainRequest)
  | abortDeadline
  | planDone (attempt : String)
  | resume

def Call.run (reads : Reads) : Call → TierM Unit
  | .dispatch a => Attempts.dispatch a
  | .restoreEnded a outcome plan => Attempts.restoreEnded a outcome plan
  | .restoredStop a cause => Attempts.restoredStop reads a cause
  | .engineDied a outcome => Attempts.engineDied reads a outcome
  | .cleanup a => Attempts.cleanup reads a
  | .spawnRecorded a spawn => Attempts.spawnRecorded reads a spawn
  | .statusRecorded a status => Attempts.statusRecorded reads a status
  | .spawnFailed a error => Attempts.spawnFailed reads a error
  | .wrapperExited a spawn => Attempts.wrapperExited reads a spawn
  | .stop a cause => stopOne reads a cause
  | .fires a => Attempts.fires reads a
  | .groupGone a => Attempts.groupGone reads a
  | .forget a => Attempts.forget a
  | .climbed i => Attempts.climbed i
  | .judged i outlives => Attempts.judged i outlives
  | .ladderRaises i error => Attempts.ladderRaises i error
  | .ladderDone i => Attempts.ladderDone i
  | .replayDone => Attempts.replayDone reads
  | .stopRequested request => Attempts.stopRequested reads request
  | .abortDeadline => Attempts.abortDeadline reads
  | .planDone a => Attempts.planDone reads a
  | .resume => Attempts.resume reads

/-- The run id the call gives to the tier. -/
def Call.adopts : Call → Option String
  | .dispatch a | .restoreEnded a _ _ => some a
  | _ => none

/-- What the engine keeps to when it makes a call: a run id is given once, nothing is dispatched in
a drain, a restart adopts and cleans up before it serves, a plan is done after the outcome, and
the deadline fires once it is armed. -/
def Call.Fair (calls : List Call) (e : Tiers) : Call → Prop
  | .dispatch a => (∀ call ∈ calls, call.adopts ≠ some a) ∧ (e.engineState = "STARTING" ∨ e.engineState = "RUNNING")
  | .restoreEnded a _ _ => (∀ call ∈ calls, call.adopts ≠ some a) ∧ e.engineState = "STARTING"
  | .cleanup a => e.engineState = "STARTING" ∧ ∃ outcome planDone, .restoreEnded a outcome planDone ∈ calls
  | .planDone a => e.state a = "ENDED"
  | .abortDeadline => e.machines.records.world.deadline.isSome
  | _ => True

/-- The states of two tiers, with the calls that led there, the last first. Whatever the world
answers, every fair order of the calls is a run. -/
inductive Reached (e₀ : Tiers) : List Call → Tiers → Prop
  | opened : Reached e₀ [] e₀
  | call {calls : List Call} {e : Tiers} (h : Reached e₀ calls e) (reads : Reads) {call : Call} (hfair : call.Fair calls e) :
    Reached e₀ (call :: calls) ((call.run reads).after e)

end Dsl41.Attempts
