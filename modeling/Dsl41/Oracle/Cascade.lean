import Dsl41.Oracle.Moments

/-!
# The consequences of a row

What the rows' actions send and report beyond their own moves, and the `job` chart assembled. An
action reads the view and sends items; of the world it changes only the records of new moves and
batches, which its items name.
-/

namespace Dsl41.Oracle

open Dsl41.Infra Dsl41.Store
open Dsl41.StateMachine (Action Effects Name Statechart INITIAL)

/-- What an action sends and reports, with the records its items name. -/
structure Consequences extends Step where
  moves : List Move := []
  batches : List Batch := []

/-- What the executor takes of a step. -/
def Step.effects (s : Step) : Effects Key Payload :=
  { send := s.send, intents := s.intents.map .intent }

/-- The world with an action's records. -/
def World.allocate (w : World) (c : Consequences) : World :=
  { w with cascade := { w.cascade with
      moves := w.cascade.moves ++ c.moves, batches := w.cascade.batches ++ c.batches } }

/-- The first raise of an item stands. -/
def World.raise (w : World) (e : OracleError) : World := { w with raised := w.raised.or (some e) }

/-- `QueuedRecheck`'s value. -/
def QueuedRecheck.text : QueuedRecheck → String
  | nothing => "0"
  | conditions => "1"
  | day => "2"

namespace View

variable (v : View) (job : String) (ctx : Ctx)

/-! ## A status move -/

/-- `_move`. -/
def newMove (batch : Option BatchId := none) : Move :=
  let row := v.row job
  { job, old := row.status, run := row.runNumber, new := row.status, batch }

/-- The number of the next move, and of the next batch. -/
def nextMove : MoveId := v.cascade.moves.length
def nextBatch : BatchId := v.cascade.batches.length

end View

/-- `_move_sends`. -/
def moveSends (job : String) (move : MoveId) : List Send :=
  [program job BOX_RULES (.boxRules (.record move) none), sendTo job SETTLE (.settle move),
    once job WAKE (.wakeAfter move)]

/-- The settlement a batch's row sends ahead of anything else. -/
def settleFirst (job : String) (move : MoveId) : Send :=
  sendTo job LEAVE_LIVE (.settlement { job, success := false, move := some move })

namespace View

variable (v : View) (job : String) (ctx : Ctx)

/-- `_after`: a status move on its own, then what follows it. -/
def after (tail : List Send := []) (intents : List Intent := []) : Consequences where
  send := moveSends job v.nextMove ++ tail
  intents := .move v.nextMove :: intents
  moves := [v.newMove job]

/-- The ends of a box's members, after the box's own end. -/
def boxEndsStep (run : Option Int) : Send := program job BOX_ENDS_STEP (.boxEnds job run)

/-- `_after_inject`. -/
def afterInject : List Send :=
  match v.boxOf job with
  | none => []
  | some box =>
    [once job AFTER_INJECT (.injectTail job box (v.status box) (v.row box).runNumber)]

def onMoved : Consequences := v.after job

def onTerminated : Consequences :=
  v.after job (if v.isBox job then [boxEndsStep job (some (v.row job).runNumber)] else [])

def onCompleted : Consequences := v.after job [boxEndsStep job none]

def onInjected : Consequences := v.after job (v.afterInject job)

def onCancelled : Consequences := v.after job [] [.readmitted]

/-- The cause of a waiter's leaving. -/
def leftCause (why : String) : String :=
  "QUE_WAIT left unstarted: " ++ why ++ " (queued-recheck=" ++ v.semantics.queuedRecheck.text ++
    ", DL-257)"

/-- `_after_leave`. -/
def onLeftQueue : Except OracleError Consequences :=
  match v.queuedRecheck job with
  | some (some (check, why)) =>
    let boxRun := (v.boxOf job).map fun box => (v.row box).runNumber
    .ok (v.after job
      [once job AFTER_LEAVE (.leaveTail job check (v.leftCause why) (v.row job).runNumber boxRun)]
      [.readmitted])
  | _ => .error (.clock job)

/-- `_box_running`: the members' auto_hold, their starts, then the window pass. -/
def boxRunning : List Send :=
  let cause := "box " ++ quoted job ++ " started"
  (v.members job).map (fun m => ruleItem BOX_RUNNING { job := m, box := job }) ++
    (v.members job).map (fun m => startItem { job := m, cause }) ++
    [program job WINDOW_PASS
      (.windowPass job (v.row job).runNumber cause v.cascade.windowStarts.isNone)]

def onRunsBox : Consequences :=
  v.after job (v.boxRunning job) (if v.cascade.windowStarts.isNone then [.openPass] else [])

/-! ## The start family -/

/-- `_start_batch`, with the record it makes. -/
def startBatch : Option BatchId × List Batch :=
  if v.isBox job then (some v.nextBatch, [{ box := job }]) else (none, [])

/-- `_admitted`: a bypass and a queue move the status. -/
def admittedMove (verdict : Admitting) (attempt : StartFacts) : Consequences where
  send := [sendTo job START_ADMITTED
    (.admitted { verdict, admission := { job }, move := some v.nextMove, attempt })]
  intents := [.move v.nextMove]
  moves := [v.newMove job]

/-- `_admitted`: an admission's status moves later. -/
def admittedStart (verdict : Admitting) (attempt : StartFacts) (admission : AdmissionFacts) :
    Consequences where
  send := [sendTo job START_ADMITTED
    (.admitted { verdict, admission := { admission with batch := (v.startBatch job).1 }
                 move := none, attempt })]
  batches := (v.startBatch job).2

def onExtentAdmit (attempt : StartFacts) : Consequences :=
  let vector := v.demandVector job
  v.admittedStart job .admits attempt
    { job, demand := v.demand job, vector, cause := attempt.cause, hadDemand := !vector.isEmpty
      frees := v.freesExcess job vector }

def onExtentOnHeld (attempt : StartFacts) : Consequences :=
  v.admittedStart job .onHeld attempt
    { job, onHeld := true, vector := v.demandVector job, hadDemand := true
      cause := attempt.cause ++
        "; starts on its held units, other resources not re-evaluated (DL-256)" }

/-- `_load_mark`. -/
def loadMark : List Send :=
  if takesMachineLoad (v.demandVector job) then [once job LOAD_TAKEN .loadTaken] else []

/-- `_on_bypass_extent`. -/
def onBypassExtent (admitted : Admitted) (move : MoveId) : Consequences where
  send := sendTo job ACTUAL_START
      (.runStart { job, cause := "ON_NOEXEC bypass (" ++ admitted.attempt.cause ++ ")", arm := false })
    :: moveSends job move

/-- `_on_queue_extent`. -/
def onQueueExtent (move : MoveId) : Consequences where
  send := moveSends job move ++ v.loadMark job

/-- The admission of the payload that entered ADMITTED. -/
def admissionOf : Payload → Option AdmissionFacts
  | .admitted a => some a.admission
  | .readmission facts => some (v.readmission facts)
  | _ => none

/-- `_reset_audience`. -/
def resetAudience : List String := v.contained job true

/-- `_on_starts_run`. -/
def onStartsRun (admission : AdmissionFacts) : Consequences where
  send := [sendTo job ADMITTED_START (.admission admission),
      sendTo job ACTUAL_START (.runStart { job, cause := admission.cause })] ++
    admission.batch.elim [] fun batch =>
      (v.resetAudience job).map fun m => ruleItem BOX_START { job := m, box := job, batch }

/-- A box's reset notices. -/
def resetNotices (admission : AdmissionFacts) : List Send :=
  admission.batch.elim [] fun batch =>
    [program job NOTIFY_STEP
      (.notices (v.batchRuns batch) false ((v.batchMoves batch).map (·.1)))]

/-- `_starting`. -/
def starting (admission : AdmissionFacts) (tail : List Send) : Consequences where
  send := moveSends job v.nextMove ++ v.resetNotices job admission ++
    sendTo job STARTED
      (.started { job, run := (v.row job).runNumber, hadDemand := admission.hadDemand }) :: tail
  intents := [.move v.nextMove]
  moves := [v.newMove job]

/-- `_on_starting_admitted`. -/
def onStartingAdmitted (admission : AdmissionFacts) : Consequences :=
  v.starting job admission ((if admission.frees then [fullScan] else []) ++ v.loadMark job)

/-- `_on_settles_first`. -/
def onSettlesFirst (attempt : StartFacts) : Except OracleError Consequences :=
  match v.owedSettlements job with
  | [] => .error (.hook job "job.401 fired, and no settlement of its run is owed")
  | late :: _ =>
    let success := (v.cascade.moves[late]?).any (·.new = .success)
    .ok
      { send := [sendTo job LEAVE_LIVE (.settlement { job, success, move := some late }),
          startItem attempt]
        intents := [.settledEarly late] }

/-- `_on_skips_in_box`. -/
def onSkipsInBox : Consequences where
  send := [program job BOX_RULES (.boxRules (.notice job .inactive .inactive) none)]

/-! ## The batch INACTIVE path -/

/-- `_on_cascades`. -/
def onCascades (batch : Batch) : Consequences :=
  let move := v.newMove job (some v.nextBatch)
  { send := (if move.old.live then [settleFirst job v.nextMove] else []) ++
      (v.contained job false).map (fun m =>
        ruleItem BOX_SET_INACTIVE { job := m, box := job, batch := some v.nextBatch }) ++
      program job NOTIFY_STEP (.notify v.nextBatch) :: v.afterInject job
    intents := [.move v.nextMove]
    moves := [move]
    batches := [batch] }

/-- `_on_batched`. -/
def onBatched (rule : Rule) : Consequences :=
  let move := v.newMove job rule.batch
  { send := if move.old.live then [settleFirst job v.nextMove] else []
    intents := [.move v.nextMove]
    moves := [move] }

/-! ## The flags -/

/-- The wakes of an iced job's referencers. -/
def icedWakes : Send := once job WAKE (.wakes job (quoted job ++ " put ON_ICE") false)

/-- `_on_iced`. -/
def onIced : Consequences where
  send := [sendTo job ICE_MOVED (.bare job),
    program job HOLDERS (.iceResolves (.start job (v.status job) (v.ancestorRuns job))),
    icedWakes job]

/-- `_on_noexec`. -/
def onNoexec : Consequences :=
  let row := v.row job
  if (dataOf ctx).box then
    let tree := job :: v.contained job false
    let runs := tree.map fun j => (j, (v.row j).runNumber)
    let released := tree.filter fun j => (v.row j).onHold
    { send := (v.contained job false).map (fun m => ruleItem BOX_ON_NOEXEC { job := m, box := job }) ++
        [program job RETRY_STEP (.noexecTail job tree released runs)] }
  else
    let moved := sendTo job NOEXEC_MOVED (.noexec job)
    if (dataOf ctx).catalog && (row.onHold || row.status = .queWait) then
      { send := [moved, program job RETRY_STEP (.retries [job] [(job, row.runNumber)])] }
    else { send := [moved] }

/-- `_on_cleared_noexec`. -/
def onClearedNoexec : Option Consequences :=
  if (dataOf ctx).box then
    some { send := (v.contained job false).map fun m =>
      ruleItem BOX_OFF_NOEXEC { job := m, box := job } }
  else none

end View

/-! ## The actions -/

abbrev JobAction := Action Key Payload World

/-- What an action asks of the payload: the consequences it reads off it, or the payload is not
the one its row is about. -/
abbrev Reaction := View → String → Ctx → Except OracleError (Option Consequences)

/-- An action that asks the handle on the payload's job. -/
def asks (f : Reaction) : JobAction := fun ctx w =>
  match ctx.event.payload.units with
  | none => (none, w.raise (.hook "" (ctx.event.name ++ ": a payload with no handle on the job's units")))
  | some job =>
    match f w.view job ctx with
    | .error e => (none, w.raise e)
    | .ok none => (none, w)
    | .ok (some c) => (some c.effects, w.allocate c)

/-- The payload is of another event. -/
def misread (job : String) : Except OracleError (Option Consequences) :=
  .error (.hook job "a payload of another event")

def reacts (f : View → String → Consequences) : Reaction := fun v job _ => .ok (some (f v job))

/-- An action on a start attempt. -/
def onAttempt (f : View → String → StartFacts → Except OracleError Consequences) : Reaction :=
  fun v job ctx =>
    match ctx.event.payload with
    | .start attempt => (f v job attempt).map some
    | _ => misread job

/-- An action on what a start admitted. -/
def onAdmitted (f : View → String → Admitted → Except OracleError (Option Consequences)) : Reaction :=
  fun v job ctx =>
    match ctx.event.payload with
    | .admitted a => f v job a
    | _ => misread job

/-- `bypass_extent` and `queue_extent`. -/
def onExtent (f : View → String → Admitted → MoveId → Consequences) : Reaction :=
  onAdmitted fun v job a =>
    match a.move with
    | some move => .ok (some (f v job a move))
    | none => misread job

/-- An action on the admission of the payload that entered ADMITTED. -/
def onAdmission (f : View → String → AdmissionFacts → Consequences) : Reaction := fun v job ctx =>
  match v.admissionOf ctx.event.payload with
  | some admission => .ok (some (f v job admission))
  | none => misread job

/-- `cascades`: an operator's INACTIVE carries the first row's exit code, ON_NOEXEC clears them. -/
def cascades : Reaction := fun v job ctx =>
  if ctx.event.name = NOEXEC_MOVED then .ok (some (v.onCascades job { box := job, clear := true }))
  else
    match ctx.event.payload with
    | .statusInput i => .ok (some (v.onCascades job { box := job, code := i.code }))
    | _ => misread job

def batched : Reaction := fun v job ctx =>
  match ctx.event.payload with
  | .rule rule => .ok (some (v.onBatched job rule))
  | _ => misread job

/-- `writes_status`: the status a status state's entry reports. -/
def writesStatus : JobAction := fun ctx w =>
  if ctx.event.name = INITIAL then (none, w)
  else
    asks (fun _ job ctx =>
      match statusOf ctx.active with
      | some status => .ok (some { intents := [.entered status] })
      | none => .error (.hook job "a configuration with no status")) ctx w

/-- `relay_start`. -/
def relayStart : JobAction := fun ctx w =>
  match ctx.event.payload with
  | .start attempt =>
    (some { send := [(ctx.key,
      { name := START, payload := .start (attempt.relayed (ctx.event.name = FORCE_STARTJOB)) })] }, w)
  | _ => (none, w.raise (.hook "" "a payload of another event"))

/-- `settle_ended_run`: no admission carries the end of an earlier run. -/
def settleEndedRun : JobAction := fun ctx w =>
  match ctx.event.payload with
  | .admission a =>
    (some { send := [
      (ctx.key, { name := LEAVE_LIVE, payload := .settlement { job := a.job, success := false, move := none } }),
      (ctx.key, { name := ADMITTED_START, payload := .admission a })] }, w)
  | _ => (none, w.raise (.hook "" "a payload of another event"))

/-- `report_ice`. -/
def reportIce : JobAction := fun ctx w =>
  match ctx.event.payload.units with
  | none => (none, w.raise (.hook "" (ctx.event.name ++ ": a payload with no handle on the job's units")))
  | some job => (some { send := [(ctx.key, { name := ICE_MOVED, payload := .bare job })] }, w)

/-- `reads_overrides` and `reads_fold` build facts that are read off the view here. -/
def readsDoor : JobAction := fun ctx w =>
  match ctx.event.payload with
  | .door _ => (none, w)
  | _ => (none, w.raise (.hook "" "a payload of another event"))

/-- The step of a moment; `again` is the item of the rest of the walk. -/
def resume (w : World) (m : Moment) (again : Moment → List Send) :
    Option (Effects Key Payload) × World :=
  match w.view.moment m with
  | .error e => (none, w.raise e)
  | .ok none => (none, w)
  | .ok (some (step, next)) => (some { step with send := step.send ++ again next }.effects, w)

/-- `moment`: a program is sent again, so that its next step follows its items' cascades. -/
def momentAction : JobAction := fun ctx w =>
  match ctx.event.payload with
  | .program m =>
    resume w m fun next => [(ctx.key, { name := ctx.event.name, payload := .program next })]
  | .once m => resume w m fun _ => []
  | .settle id => resume w (.settle id) fun _ => []
  | _ => (none, w.raise (.hook "" (ctx.event.name ++ ": a moment with no step of the tier's")))

/-- `ACTIONS`. -/
def ACTIONS : List (Name × JobAction) := [
  ("relay_start", relayStart),
  ("extent_bypass", asks (onAttempt fun v job a => .ok (v.admittedMove job .bypass a))),
  ("extent_queue", asks (onAttempt fun v job a => .ok (v.admittedMove job .queue a))),
  ("extent_admit", asks (onAttempt fun v job a => .ok (v.onExtentAdmit job a))),
  ("extent_on_held", asks (onAttempt fun v job a => .ok (v.onExtentOnHeld job a))),
  ("bypass_extent", asks (onExtent fun _ job a move => View.onBypassExtent job a move)),
  ("queue_extent", asks (onExtent fun v job _ move => v.onQueueExtent job move)),
  ("starts_run", asks (onAdmission fun v job a => v.onStartsRun job a)),
  ("starting_admitted", asks (onAdmission fun v job a => v.onStartingAdmitted job a)),
  ("starting_readmitted", asks (onAdmission fun v job a => v.starting job a [])),
  ("admit", asks (reacts fun _ _ => { intents := [.readmitted] })),
  ("settle_ended_run", settleEndedRun),
  ("settles_first", asks (onAttempt fun v job a => v.onSettlesFirst job a)),
  ("writes_status", writesStatus),
  ("reads_overrides", readsDoor),
  ("reads_fold", readsDoor),
  ("moved", asks (reacts fun v job => v.onMoved job)),
  ("terminated", asks (reacts fun v job => v.onTerminated job)),
  ("completed", asks (reacts fun v job => v.onCompleted job)),
  ("injected", asks (reacts fun v job => v.onInjected job)),
  ("cascades", asks cascades),
  ("batched", asks batched),
  ("cancelled", asks (reacts fun v job => v.onCancelled job)),
  ("left_queue", asks fun v job _ => (v.onLeftQueue job).map some),
  ("runs_box", asks (reacts fun v job => v.onRunsBox job)),
  ("skips_in_box", asks (reacts fun _ job => View.onSkipsInBox job)),
  ("report_ice", reportIce),
  ("iced", asks (reacts fun v job => v.onIced job)),
  ("iced_again", asks (reacts fun _ job => { send := [View.icedWakes job] })),
  ("held", asks (reacts fun _ _ => { send := [fullScan] })),
  ("released_waiter", asks (reacts fun _ _ => { send := [fullScan] })),
  ("released_hold",
    asks (reacts fun _ job => { send := [startItem { job, cause := "OFF_HOLD" }] })),
  ("noexec", asks fun v job ctx => .ok (some (v.onNoexec job ctx))),
  ("cleared_noexec", asks fun v job ctx => .ok (v.onClearedNoexec job ctx)),
  ("released_held", asks (reacts fun _ _ => { send := [fullScan] })),
  ("moment", momentAction)]

/-- `JOB`. -/
def JOB : Statechart Key Payload World where
  name := "job"
  root := JOB_ROOT
  rows := JOB_ROWS
  choices := JOB_CHOICES
  guards := fun name => List.lookup name GUARDS
  actions := fun name => List.lookup name ACTIONS
  clock := .logical

end Dsl41.Oracle
