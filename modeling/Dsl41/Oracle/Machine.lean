import Dsl41.Oracle.Perform

/-!
# Root items

The oracle's executor with its world: the instances the rows give, the loop that drives a root
item's cascade, the checks at its end, and what a raise out of it leaves.
-/

namespace Dsl41.Oracle

open Dsl41.Infra Dsl41.Store
open Dsl41.StateMachine (Instance Executor StatechartError Name)

/-- A computation of the oracle. -/
abbrev MachineM := Effect OracleError Machine

def Machine.world (e : Machine) : World := e.executor.records.world

def Machine.setWorld (e : Machine) (world : World) : Machine :=
  { e with executor := { e.executor with records := { e.executor.records with world } } }

def Machine.setExecutor (e : Machine) (executor : Executor Key Payload World) : Machine :=
  { e with executor }

/-- The oracle after a round of its executor, which takes a microstep when an item waits. -/
def Machine.turned (e : Machine) (x : Executor Key Payload World) : Machine where
  executor := x
  taken := e.taken ++ e.executor.worklist.head?.toList.map fun item =>
    { item, before := e.world, after := x.records.world }

/-- A computation of the world, on the oracle. -/
def onWorld {α : Type} (m : WorldM α) : MachineM α := do
  let e : Machine ← get
  modify fun e => Machine.setWorld e (m.after (Machine.world e))
  match m.result e.world with
  | .ok a => return a
  | .error err => throw err

/-- A change of the world. -/
def changeWorld (f : World → World) : MachineM Unit :=
  modify fun e => Machine.setWorld e (f (Machine.world e))

/-- The view of the world now. -/
def viewNow : MachineM View := do
  let e : Machine ← get
  return e.world.view

/-! ## The instances -/

/-- `_job_instance`: the instance of a job's row. -/
def jobInstance (v : View) (job : String) (row : JobFields Instant) : Instance Key Payload World :=
  { chart := JOB, data := .data (v.jobData job), active := rowConfiguration row }

def scanInstance : Instance Key Payload World :=
  { chart := QUEUE_SCAN, data := .empty, active := SCAN_IDLE }

/-- The instances the rows give, and the scan's coordinator at rest. -/
def View.instances (v : View) : Key → Option (Instance Key Payload World)
  | .scan => some scanInstance
  | .job job => (v.rows.get? job).map (jobInstance v job)

/-- `rebuild_machines`. The serial of an addition orders deferred events, and no chart here
defers one. -/
def rebuilt (w : World) : Executor Key Payload World :=
  { records := { instances := w.view.instances, world := w } }

/-- What the state owner keeps of a job's instance. -/
def storeInstance : Store.JobInstance Instant := fun _ row => .ok (rowConfiguration row.toJobFields)

/-- `_runtime`, for a row about to be moved: a new row gets its instance. -/
def ensureRow (job : String) : MachineM Unit := do
  discard (onWorld (onStore (RuntimeState.runtime job)))
  let e : Machine ← get
  let x := e.executor
  if (x.records.instances (.job job)).isNone then
    let v := e.world.view
    match x.restore (.job job) JOB (rowConfiguration (v.row job)) (.data (v.jobData job)) with
    | .ok x => modify (Machine.setExecutor · x)
    | .error err => throw (.statechart err)

/-! ## The cascade of a root item -/

/-- The loop of `Executor.run`: an item's raise, an action's or the hook's, ends it. -/
def drive : Nat → MachineM Unit
  | 0 => throw .outOfFuel
  | n + 1 => do
    let e : Machine ← get
    match e.executor.turn hook with
    | .error err => throw (.statechart err)
    | .ok none => pure ()
    | .ok (some (x, _)) =>
      modify (Machine.turned · x)
      match x.records.world.raised with
      | some err => throw err
      | none => drive n

/-- The first reached job whose row does not project to its instance. -/
def reachedProblem (e : Machine) : Option OracleError :=
  let v := e.world.view
  (e.world.reached.insertionSort (· ≤ ·)).findSome? fun job =>
    match v.rows.get? job, e.executor.records.instances (.job job) with
    | some row, some inst =>
      if inst.active = rowConfiguration row then none
      else some (.hook job "at the macrostep's end its row does not project to its instance")
    | some _, none => some (.statechart .noInstance)
    | none, _ => none

/-- `_check_reached`. -/
def checkReached : MachineM Unit := do
  let e : Machine ← get
  changeWorld fun w => { w with reached := [] }
  match reachedProblem e with
  | some err => throw err
  | none => pure ()

/-- `_check_scan_idle`. -/
def checkScanIdle : MachineM Unit := do
  let e : Machine ← get
  match e.executor.records.instances .scan with
  | some inst =>
    if inst.active ≠ SCAN_IDLE then
      throw (.hook "queue_scan" "at the macrostep's end its instance is not idle")
  | none => throw (.statechart .noInstance)

/-- Post an item and run its cascade. The hook stops the loop at the item cap. -/
def runItem (key : Key) (event : StateMachine.Event Payload) : MachineM Unit := do
  let e : Machine ← get
  match e.executor.post key event with
  | .error err => throw (.statechart err)
  | .ok x =>
    modify (Machine.setExecutor · x)
    drive (e.world.cap + 3)
    checkReached
    checkScanIdle

/-- `_recover`: the instances are the rows' again, and the cascade's bookkeeping is idle. -/
def recover : MachineM Unit := do
  changeWorld fun w => { w with cascade := w.cascade.idle, reached := [], raised := none }
  onWorld (onStore RuntimeState.restoreInstances)
  modify fun e => Machine.setExecutor e (rebuilt (Machine.world e))

/-- A computation whose raise leaves the oracle recovered. -/
def recovering (m : MachineM Unit) : MachineM Unit := do
  let e : Machine ← get
  modify fun _ => m.after e
  match m.result e with
  | .ok _ => pure ()
  | .error err =>
    recover
    throw err

/-- `_dispatch_root`, between the marks of the root item in flight. -/
def dispatchRoot (key : Key) (job : String) (event : StateMachine.Event Payload) (cause : String) :
    MachineM Unit := do
  let root := if cause = "" then event.name else event.name ++ " (" ++ cause ++ ")"
  changeWorld fun w => { w with items := 0, rooted := some (job, root) }
  recovering (runItem key event)
  changeWorld fun w => { w with items := 0, rooted := none }

/-- `_root`. -/
def root (job : String) (event : StateMachine.Event Payload) (cause : String := "") :
    MachineM Unit := do
  ensureRow job
  dispatchRoot (.job job) job event cause

/-- `_root_scan`. -/
def rootScan (job : String) (keepStopped : Bool) : MachineM Unit :=
  dispatchRoot .scan job { name := SCAN, payload := .scan keepStopped } ""

end Dsl41.Oracle
