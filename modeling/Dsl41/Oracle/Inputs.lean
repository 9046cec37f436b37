import Dsl41.Oracle.Machine

/-!
# The inputs

An input is a time observation with the attempts fed at it: it gives the removed holders' units
back, fires the due timers, wakes the waiters after a swap, applies the attempts and commits. A
swap of the catalog stands between inputs.

A loop of the source that no bound is known for takes fuel: an input that runs out of it has not
returned.
-/

namespace Dsl41.Oracle

open Dsl41.Infra Dsl41.Store
open Dsl41.StateMachine (Name)

/-! ## What an event asks -/

/-- The names of the kinds. -/
def kindName : EventKind → Name
  | .status => STATUS
  | .startJob => STARTJOB
  | .forceStartJob => FORCE_STARTJOB
  | .setGlobal => "SET_GLOBAL"
  | .onIce => ON_ICE
  | .offIce => OFF_ICE
  | .onHold => ON_HOLD
  | .offHold => OFF_HOLD
  | .onNoexec => ON_NOEXEC
  | .offNoexec => OFF_NOEXEC
  | .disarm => DISARM
  | .releaseResource => RELEASE_RESOURCE
  | .killJob => KILLJOB
  | .timer => "TIMER"
  | .mustStartAlarm => "MUST_START_ALARM"
  | .mustCompleteAlarm => "MUST_COMPLETE_ALARM"

/-- The status of a name an input may inject: every one but QUE_WAIT. -/
def injectableStatus (name : String) : Option JobStatus :=
  (statuses.filter injectable).find? fun s => statusName s = name

/-- A payload's value, none when it is null. -/
def given (ev : Event) (key : String) : Option (Value Scalar) :=
  (ev.payload.get? key).filter fun value => decide (value ≠ .other .null)

/-- `_required_job`. -/
def requiredJob (ev : Event) : Except OracleError String :=
  match ev.job with
  | some job => .ok job
  | none => .error (.oracle (kindName ev.kind ++ " requires payload.job"))

/-- The exit code of a payload with no status is a success of its job. -/
def codeSucceeds (v : View) (job : String) (code : Int) : Bool :=
  (((v.ir? job).map JobIR.sem).getD {}).exitIsSuccess code

/-- The interruption hold of a STATUS. -/
def statusHold (ev : Event) (status : Option JobStatus) : Except OracleError Bool :=
  match ev.payload.get? "hold" with
  | none | some (.other (.bool false)) => .ok false
  | some (.other (.bool true)) =>
    if status = some .failure then .ok true
    else .error (.oracle "STATUS payload.hold is true only on a FAILURE (the interruption hold)")
  | some _ =>
    .error (.oracle "STATUS payload.hold is true only on a FAILURE (the interruption hold)")

/-- `_handle_status`'s payload. -/
def statusPayload (v : View) (ev : Event) : Except OracleError StatusInput := do
  let job ← requiredJob ev
  let exitCode := asInt (ev.payload.get? "exit_code")
  match given ev "status" with
  | none =>
    match exitCode with
    | none =>
      throw (.oracle "STATUS requires payload.status or integer payload.exit_code")
    | some code =>
      let hold ← statusHold ev none
      return { job, status := none, success := codeSucceeds v job code, code := exitCode, hold }
  | some value =>
    match (asText (some value)).bind injectableStatus with
    | none => throw (.oracle ("unknown status " ++ textOf (some value)))
    | some status =>
      let hold ← statusHold ev (some status)
      return { job, status := some status, success := false, code := exitCode, hold }

/-- The cause of a start an event asks: a postponed one names the original. -/
def startCause (ev : Event) : String :=
  match asText (ev.payload.get? "deferred_cause") with
  | some deferred => "run_window-deferred " ++ deferred
  | none =>
    match ev.source.filter (· ≠ "") with
    | some source => kindName ev.kind ++ " event (" ++ source ++ ")"
    | none => kindName ev.kind ++ " event"

/-! ## Attempts outside a macrostep -/

/-- `_attempt_root`. -/
def attemptRoot (job : String) (relay : Name) (cause : String) : MachineM Unit := do
  let v ← viewNow
  if (v.ir? job).isNone && (v.rows.get? job).isNone then return
  root job { name := relay, payload := .start { job, cause } } cause

def attemptRoots (relay : Name) (cause : String) : List String → MachineM Unit
  | [] => pure ()
  | job :: jobs => do
    attemptRoot job relay cause
    attemptRoots relay cause jobs

/-- A tick's deadline of one kind. -/
def armDeadline (job : String) (check : SlaCheck) : MachineM Unit := do
  match (← viewNow).tickDeadline job check with
  | none => throw (.clock job)
  | some none => pure ()
  | some (some timer) => onWorld (scheduleTimer timer.at_ timer)

/-- STARTJOB, FORCE_STARTJOB and a postponed start: a tick arms its deadlines first. -/
def handleStart (ev : Event) (job : String) : MachineM Unit := do
  if ev.kind = .startJob then
    armDeadline job .mustStart
    armDeadline job .mustComplete
  attemptRoot job (if ev.kind = .timer then RUN_WINDOW else kindName ev.kind) (startCause ev)

/-! ## Timers -/

/-- A window timer's own facts: a stale deferral, or a scan continuation. None for a postponed
start that is neither. -/
def windowTimer (v : View) (ev : Event) (job deferred : String) : Option StartFacts :=
  let stale := v.deferralIsStale job ev.payload
  let rescan := (ev.payload.get? "rescan_run").isSome
  if stale.isNone && !rescan then none
  else
    let superseded := stale.isNone &&
      v.rescanSuperseded job (asInt (ev.payload.get? "rescan_run"))
    let why := match stale with
      | none => "the job has moved on since the scan stopped -- no effect (DL-257; " ++
          deferred ++ ")"
      | some stale => stale ++ " (run_window-deferred " ++ deferred ++ ")"
    some { job, cause := deferred, stale := stale.isSome || superseded, rescan
           refusal := some why }

/-- `_handle_timer` on a deadline of a run. -/
def termRunTime (ev : Event) (job : String) : MachineM Unit := do
  ensureRow job
  let current := decide (asInt (ev.payload.get? "run") = some ((← viewNow).row job).runNumber)
  root job { name := TERM_RUN_TIME, payload := .deadline job current }

/-- `_handle_timer`, and what `_dispatch` makes of a timer it does not take. -/
def handleTimer (ev : Event) : MachineM Unit := do
  match given ev "check" with
  | some check =>
    let job ← onWorld (raising (requiredJob ev))
    if check = .text "term_run_time" then termRunTime ev job
    else
      ensureRow job
      onWorld (dispatchTimerCheck job ((asText (some check)).getD "") (asInt (ev.payload.get? "run")))
  | none =>
    let job ← onWorld (raising (requiredJob ev))
    match asText (ev.payload.get? "deferred_cause") with
    | none => handleStart ev job
    | some deferred =>
      match windowTimer (← viewNow) ev job deferred with
      | none => handleStart ev job
      | some facts => root job { name := RUN_WINDOW, payload := .start facts }

/-! ## The dispatch of an event -/

/-- The payload of a flag input. -/
def flagPayload (kind : EventKind) (job : String) : Payload :=
  match kind with
  | .onNoexec => .noexec job
  | .disarm => .armed job
  | _ => .bare job

/-- An input that is one root item on its job's instance. -/
def handleJob (ev : Event) (payload : String → Payload) : MachineM Unit := do
  let job ← onWorld (raising (requiredJob ev))
  root job { name := kindName ev.kind, payload := payload job }

/-- SET_GLOBAL: each referencer's attempt is a root item. -/
def handleGlobal (ev : Event) : MachineM Unit := do
  match asText (ev.payload.get? "name") with
  | none => throw (.oracle "SET_GLOBAL requires payload.name")
  | some name =>
    onWorld (onStore (RuntimeState.setGlobal name (textOf (ev.payload.get? "value"))))
    attemptRoots START ("SET_GLOBAL " ++ name) ((← viewNow).referencers ("g:" ++ name))

/-- `_dispatch`. -/
def dispatch (ev : Event) : MachineM Unit :=
  match ev.kind with
  | .status => do
    let input ← onWorld (raising (statusPayload (← viewNow) ev))
    root input.job { name := STATUS, payload := .statusInput input }
  | .killJob => handleJob ev .armed
  | .releaseResource => handleJob ev .bare
  | .timer => handleTimer ev
  | .onIce | .offIce | .onHold | .offHold | .onNoexec | .offNoexec | .disarm =>
    handleJob ev (flagPayload ev.kind)
  | .startJob | .forceStartJob => do
    let job ← onWorld (raising (requiredJob ev))
    handleStart ev job
  | .setGlobal => handleGlobal ev
  | .mustStartAlarm | .mustCompleteAlarm =>
    throw (.oracle ("uninjectable event kind " ++ quoted (kindName ev.kind)))

/-! ## The input's scans and its queue -/

/-- The scan the input owes: admit-only, named by the first waiter. -/
def payScan : MachineM Unit := do
  let e : Machine ← get
  let w := e.world
  let rows := w.view.rows
  if w.pool.hasPriorityWaiters rows then
    rootScan ((w.pool.sortedWaiters rows).headD (rows.keys.headD "")) true

/-- `_run_owed_scan`. -/
def runOwedScan : Nat → MachineM Unit
  | 0 => throw .outOfFuel
  | fuel + 1 => do
    let e : Machine ← get
    if e.world.cascade.scanOwed then
      changeWorld fun w => { w with cascade := { w.cascade with scanOwed := false } }
      payScan
      runOwedScan fuel

variable (fuel : Nat)

/-- The queue's events, each followed by the scan it owes. No dispatch queues another. -/
def drainAll : List Event → MachineM Unit
  | [] => pure ()
  | ev :: rest => do
    changeWorld fun w => { w with queue := rest }
    dispatch ev
    runOwedScan fuel
    drainAll rest

/-- `_drain`. -/
def drain : MachineM Unit := do
  let e : Machine ← get
  drainAll fuel e.world.queue

/-- An event joins the queue, and the queue drains. -/
def enqueue (ev : Event) : MachineM Unit := do
  changeWorld fun w => { w with queue := w.queue ++ [ev] }
  drain fuel

/-! ## The time half of an input -/

def openings : List String → MachineM Unit
  | [] => pure ()
  | job :: jobs => do
    root job { name := PERIOD_OPENING, payload := .empty }
    openings jobs

/-- `_release_removed_holders`. -/
def releaseRemovedHolders : MachineM Unit := do
  let e : Machine ← get
  let owed := e.world.openingRelease
  changeWorld fun w => { w with openingRelease := [] }
  openings owed
  match owed with
  | [] => pure ()
  | job :: _ => rootScan job false

/-- `_fire_timers_due`. -/
def fireTimersDue (at_ : Instant) : Nat → MachineM Unit
  | 0 => throw .outOfFuel
  | rounds + 1 => do
    match ← onWorld (onStore (RuntimeState.popTimerDue at_)) with
    | none => pure ()
    | some (due, ev) =>
      changeWorld fun w => { w with now := some due }
      enqueue fuel ev
      fireTimersDue at_ rounds

/-- `_wake_after_swap`. -/
def wakeAfterSwap : MachineM Unit := do
  let e : Machine ← get
  if e.world.wakeOwed then
    changeWorld fun w => { w with wakeOwed := false }
    match e.world.pool.sortedWaiters e.world.view.rows with
    | [] => pure ()
    | job :: _ => rootScan job false

/-- The body of `InputBatch.__enter__`. -/
def timeHalf (at_ : Instant) : MachineM Unit := do
  releaseRemovedHolders
  fireTimersDue fuel at_ fuel
  changeWorld fun w => { w with now := some at_ }
  wakeAfterSwap
  drain fuel

/-- `InputBatch.feed`. -/
def attemptHalf (at_ : Instant) (ev : Event) : MachineM Unit := do
  if ev.at_ ≠ at_ then throw (.oracle "attempt stamped at another instant than its batch")
  enqueue fuel ev

def attemptHalves (at_ : Instant) : List Event → MachineM Unit
  | [] => pure ()
  | ev :: evs => do
    attemptHalf fuel at_ ev
    attemptHalves at_ evs

/-! ## The transaction -/

/-- What an input gives its caller. -/
structure Committed where
  emitted : List Event
  kills : List Nat
  revisions : List (String × Nat)

/-- `InputBatch._commit`. -/
def commit (start : Nat) : MachineM Committed := do
  let changed ← onWorld (onStore RuntimeState.commitInput)
  let e : Machine ← get
  let w := e.world
  return {
    emitted := w.emitted.drop start
    kills := (w.killEmissions.filter (start ≤ ·)).map (· - start)
    revisions := changed.map fun key => (key, ((w.store.revision key).toOption).getD 0) }

/-- A body, then the commit: a raise commits what it changed, and gives way to a raise of the
commit unless it is the statechart's. -/
def committing (body : MachineM Unit) (start : Nat) : MachineM Committed := do
  let e : Machine ← get
  modify fun _ => body.after e
  match body.result e with
  | .ok _ => commit start
  | .error err =>
    let e : Machine ← get
    modify fun _ => (commit start).after e
    match (commit start).result e with
    | .ok _ => throw err
    | .error cleanup => throw (if err.isStatechart then err else cleanup)

/-- One admitted input: its instant and the attempts fed at it. -/
def input (at_ : Instant) (evs : List Event) : MachineM Committed := do
  let e : Machine ← get
  let w := e.world
  if w.now.any (at_ < ·) then throw (.oracle "input time went backwards")
  onWorld (onStore RuntimeState.beginInput)
  committing (do timeHalf fuel at_; attemptHalves fuel at_ evs) w.emitted.length

/-- `feed`. -/
def feed (ev : Event) : MachineM Committed := input fuel ev.at_ [ev]

/-- `advance`. -/
def advance (now : Instant) : MachineM Committed := input fuel now []

end Dsl41.Oracle
