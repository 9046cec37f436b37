import Dsl41.Oracle.Capacity
import Dsl41.StateMachine.Chart

/-!
# The events of the job chart and what they carry

The vocabulary of the `job` and `queue_scan` charts, the payloads of their events, the intents a
row's action reports to the hook, and the moments of a cascade. A moment is a self-event that
carries the rest of a walk: each stage of a `Moment` is a point where the walk waits for the items
of its last step to run out.

A record that a cascade changes after it was sent (a move, a batch) is in the world; a payload
holds its number.
-/

namespace Dsl41.Oracle

open Dsl41.Store
open Dsl41.StateMachine (Name)

/-! ## Names -/

/-- The instances of the state owner's executor: one for each job's row, and the queue's scan. -/
inductive Key where
  | job (name : String)
  | scan
deriving DecidableEq, Repr

def STATUS : Name := "STATUS"
def STARTJOB : Name := "STARTJOB"
def FORCE_STARTJOB : Name := "FORCE_STARTJOB"
def KILLJOB : Name := "KILLJOB"
def ON_ICE : Name := "ON_ICE"
def OFF_ICE : Name := "OFF_ICE"
def ON_HOLD : Name := "ON_HOLD"
def OFF_HOLD : Name := "OFF_HOLD"
def ON_NOEXEC : Name := "ON_NOEXEC"
def OFF_NOEXEC : Name := "OFF_NOEXEC"
def DISARM : Name := "DISARM"
def RELEASE_RESOURCE : Name := "RELEASE_RESOURCE"
def TERM_RUN_TIME : Name := "TIMER term_run_time"
def RUN_WINDOW : Name := "TIMER run_window"

def START : Name := "start"
def STARTED : Name := "started"
def READMIT : Name := "readmit"
def ACTUAL_START : Name := "actual start"
def ADMITTED_START : Name := "admitted start"
def START_ADMITTED : Name := "start admitted"
def LEAVE_LIVE : Name := "leave STARTING or RUNNING"
def ICE_MOVED : Name := "ice moved"
def NOEXEC_MOVED : Name := "noexec moved"
def MEMBER_MOVES : Name := "member moves"
def MEMBER_ENDS : Name := "member ends FAILURE or TERMINATED"
def BOX_RECOMPUTE : Name := "box recompute"
def BOX_START : Name := "box start"
def BOX_RUNNING : Name := "box running"
def BOX_SET_INACTIVE : Name := "box set INACTIVE"
def BOX_RUN_ENDS : Name := "box run ends"
def BOX_ENDS : Name := "box ends FAILURE or TERMINATED"
def BOX_OFF_NOEXEC : Name := "OFF_NOEXEC on its box"
def BOX_ON_NOEXEC : Name := "ON_NOEXEC on its box"
def PERIOD_OPENING : Name := "first input of a period"

def BOX_RULES : Name := "box rules"
def SETTLE : Name := "settle"
def WAKE : Name := "wake"
def WALK_UP : Name := "walk up"
def HOLDERS : Name := "holders may leave"
def LOAD_TAKEN : Name := "load taken"
def BOX_ENDS_STEP : Name := "box ends step"
def NOTIFY_STEP : Name := "notify step"
def WINDOW_PASS : Name := "window pass"
def AFTER_INJECT : Name := "after inject"
def AFTER_LEAVE : Name := "after leave"
def RETRY_STEP : Name := "retry step"

/-- `MOMENTS`. -/
def MOMENTS : List Name :=
  [BOX_RULES, SETTLE, WAKE, WALK_UP, HOLDERS, LOAD_TAKEN, BOX_ENDS_STEP, NOTIFY_STEP, WINDOW_PASS,
    AFTER_INJECT, AFTER_LEAVE, RETRY_STEP]

def SCAN : Name := "scan"

/-! ## Data and verdicts -/

/-- What leaving a run does with its units. -/
inductive Release where
  | free | keep | spend
deriving DecidableEq, Repr

/-- A member's view of its box's run. -/
inductive BoxGate where
  | none | running | idle | ran | icedOut
deriving DecidableEq, Repr

/-- The closer-edge rule of a run window at an instant. -/
inductive WindowSide where
  | inside | defer | skip
deriving DecidableEq, Repr

/-- The verdicts of a start past the gates and the bound. -/
inductive Admitting where
  | bypass | queue | admits | onHeld
deriving DecidableEq, Repr

/-- `JobData`: what a job instance's guards read besides its configuration and the event. -/
structure JobData where
  box : Bool := false
  catalog : Bool := true
  jobTerminator : Bool := false
  autoHold : Bool := false
deriving DecidableEq, Repr

/-- The numbers of the moves and the batches of a world. -/
abbrev MoveId := Nat
abbrev BatchId := Nat

/-- The run numbers of some boxes, read at one instant. -/
abbrev Runs := List (String × Int)

/-! ## Payloads -/

/-- `StartFacts`: an attempt's eager fields. Its other facts are read off the world. -/
structure StartFacts where
  job : String
  cause : String := ""
  force : Bool := false
  explicit : Bool := false
  scheduled : Bool := false
  stale : Bool := false
  rescan : Bool := false
  decided : Bool := false
  refusal : Option String := none

/-- `StartFacts.relayed`. -/
def StartFacts.relayed (attempt : StartFacts) (force : Bool) : StartFacts :=
  { attempt with force, explicit := true, scheduled := true }

/-- `ReadmitFacts`, with the batch of the waiter's start when it is a box. -/
structure ReadmitFacts where
  job : String
  keepStopped : Bool
  batch : Option BatchId := none

/-- `DoorFacts`: one visit of a running box's completion door. -/
structure DoorFacts where
  box : String
  member : Option String
  new : Option JobStatus
  overrides : Bool
  folds : Bool
  completion : Bool
  atStart : Bool := false

/-- `RecomputeFacts`. -/
structure RecomputeFacts where
  box : String
  trigger : String
  cause : String

/-- `Started`. -/
structure Started where
  job : String
  run : Int
  hadDemand : Bool

/-- `StatusInput`. -/
structure StatusInput where
  job : String
  status : Option JobStatus
  success : Bool
  code : Option Int
  hold : Bool

/-- `MemberEnd`. -/
structure MemberEnd where
  box : String
  member : String
  new : JobStatus
  fires : Bool

/-- `Rule`: a box's moment on a job it contains. -/
structure Rule where
  job : String
  box : String
  batch : Option BatchId := none

/-- `AdmissionFacts`. -/
structure AdmissionFacts where
  job : String
  onHeld : Bool := false
  demand : Bool := true
  vector : List DemandEntry := []
  cause : String := ""
  hadDemand : Bool := false
  frees : Bool := false
  batch : Option BatchId := none

/-- `Admitted`. -/
structure Admitted where
  verdict : Admitting
  admission : AdmissionFacts
  move : Option MoveId
  attempt : StartFacts

/-- `RunStart`. -/
structure RunStart where
  job : String
  cause : String
  arm : Bool := true

/-- `Settlement`: the end of a run whose units settle. -/
structure Settlement where
  job : String
  success : Bool
  move : Option MoveId

/-! ## Intents -/

/-- A write the hook performs after the microstep's row writes. -/
inductive Intent where
  | entered (status : JobStatus)
  | move (id : MoveId)
  | readmitted
  | clearReadmitted
  | scanState (owed : Bool)
  | openPass
  | register (box : String) (run : Int) (cause : String)
  | closePass
  | settledEarly (id : MoveId)
  | clearCodes (jobs : List String)
  | deferToOpening (job : String) (cause : String)

/-! ## Moments -/

/-- A move as its box rules read it: the record of a move, or a notice with no record. -/
inductive Moved where
  | record (id : MoveId)
  | notice (job : String) (old new : JobStatus)

/-- The job, the statuses and the ancestors' runs of a move whose box rules began. -/
structure Ruling where
  job : String
  old : JobStatus
  new : JobStatus
  runs : Runs

/-- `_walk_up`: the boxes still to visit, and the box whose visit must have left it in its run. -/
structure Walk where
  member : String
  new : JobStatus
  resolved : Bool
  runs : Runs
  visited : Option String
  rest : List String

/-- `_ice_resolves`, before and after its door. -/
inductive IceStage where
  | start (job : String) (status : JobStatus) (runs : Runs)
  | opened (job box : String) (status : JobStatus) (runs : Runs)
  | walking (walk : Walk)

/-- A box run whose start is in progress: the box, its run and the cause of its members' starts. -/
abbrev BoxStarts := List (String × Int × String)

inductive Moment where
  -- `_box_rules` and, inside it, `_member_rules`
  | boxRules (moved : Moved) (runs : Option Runs)
  | memberEnded (ruling : Ruling) (status : JobStatus) (fires : Bool)
  | memberRuled (ruling : Ruling)
  | walked (ruling : Ruling)
  | held (ruling : Ruling)
  | walkUp (walk : Walk)
  -- `_holders`: the visit in progress, and the holders with their parents still to check
  | holders (runs : Runs) (visit : Option IceStage) (rest : List (String × String))
  | iceResolves (stage : IceStage)
  | settle (move : MoveId)
  | wakeAfter (move : MoveId)
  | wakes (job : String) (cause : String) (queue : Bool)
  | boxEnds (box : String) (run : Option Int)
  | boxEnding (box : String) (run : Int) (rest : List String)
  | notify (batch : BatchId)
  | notices (runs : List (String × Runs)) (owed : Bool) (rest : List MoveId)
  | injectTail (job box : String) (status : JobStatus) (run : Int)
  | leaveTail (job : String) (check : String) (cause : String) (run : Int) (boxRun : Option Int)
  | loadTaken
  | noexecTail (job : String) (tree released : List String) (runs : Runs)
  | noexecMoved (job : String) (released : List String) (runs : Runs)
  | retries (released : List String) (runs : Runs)
  | windowPass (box : String) (run : Int) (cause : String) (owner : Bool)
  | passClosed (starts : BoxStarts)
  | attempts (starts : BoxStarts) (rest : List (String × Int × String × String))
  | doors (rest : BoxStarts)
  | done

/-- What the executor of the oracle carries: the payloads of the events, the data of a job's
instance, and the intents. A payload names the job its handle is on. -/
inductive Payload where
  | data (data : JobData)
  | empty
  | bare (job : String)
  | armed (job : String)
  | start (attempt : StartFacts)
  | noexec (job : String)
  | readmission (facts : ReadmitFacts)
  | door (facts : DoorFacts)
  | recompute (facts : RecomputeFacts)
  | started (facts : Started)
  | statusInput (input : StatusInput)
  | memberEnd (facts : MemberEnd)
  | rule (rule : Rule)
  | admission (facts : AdmissionFacts)
  | admitted (admitted : Admitted)
  | runStart (run : RunStart)
  | deadline (job : String) (current : Bool)
  | settlement (settlement : Settlement)
  | scan (keepStopped : Bool)
  -- a moment of several steps, of one step, and a settlement's own
  | program (moment : Moment)
  | once (moment : Moment)
  | settle (move : MoveId)
  | intent (intent : Intent)

instance : Inhabited Payload := ⟨.empty⟩

/-- `units`: the job whose handle the payload carries. -/
def Payload.units : Payload → Option String
  | bare job | armed job | noexec job | deadline job _ => some job
  | start a => some a.job
  | readmission f => some f.job
  | door f => some f.box
  | recompute f => some f.box
  | started f => some f.job
  | statusInput i => some i.job
  | memberEnd e => some e.box
  | rule r => some r.job
  | admission a => some a.job
  | admitted a => some a.attempt.job
  | runStart r => some r.job
  | _ => none

end Dsl41.Oracle
