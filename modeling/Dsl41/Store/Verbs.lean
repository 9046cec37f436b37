import Dsl41.Store.RuntimeState

/-!
# The verbs of the state owner

Each verb names what it changes and writes through `replace`, so that the row it is about is
touched first. `Verb` lists them with their arguments: a run of an input is a list of verbs, each
returning or raising.
-/

namespace Dsl41.Store

open Dsl41.Infra

variable {τ ω : Type} [LinearOrder τ]

namespace RuntimeState

/-! ## Rows -/

/-- `transition`. -/
def transition (job : String) (status : JobStatus) (at_ : Option τ) (exitCode : Option Int)
    (clearExitCode : Bool) : RuntimeM τ ω Unit :=
  replace job fun row => { row with
    status
    statusAt := at_
    lastEndAt := if status.terminal then at_ else row.lastEndAt
    exitCode := match exitCode with
      | some code => some code
      | none => if clearExitCode then none else row.exitCode }

/-- `move_flag`. -/
def moveFlag (job : String) (target : FlagState) : RuntimeM τ ω Unit :=
  replace job fun row => target.write row

/-- The member joins its box's ran set; its own start voids its two marks. -/
def joinBox (job box : String) : RuntimeM τ ω Unit := do
  let boxRow ← runtime box
  replace box fun row => { row with
    ranMembers := boxRow.ranMembers ∪ {job}
    windowSkippedMembers := boxRow.windowSkippedMembers \ {job}
    icedOutMembers := boxRow.icedOutMembers \ {job} }

/-- A starting box resets its own per-run sets. -/
def resetBox (job : String) : RuntimeM τ ω Unit :=
  replace job fun row => { row with
    ranMembers := ∅, windowSkippedMembers := ∅, icedOutMembers := ∅ }

/-- `start_run`. -/
def startRun (job cause : String) (box : Option String) (isBox : Bool) : RuntimeM τ ω Unit := do
  moveFlag job .armOff
  let row ← runtime job
  let s ← get
  replace job fun r => { r with
    runNumber := row.runNumber + 1, startedBy := some cause, startPeriod := s.periodId }
  match box with
  | some box => joinBox job box
  | none => pure ()
  if isBox then resetBox job

/-- `clear_exit_code`. -/
def clearExitCode (job : String) : RuntimeM τ ω Unit :=
  replace job fun row => { row with exitCode := none }

/-- `record_resolution`. -/
def recordResolution (box member : String) : RuntimeM τ ω Unit := do
  let boxRow ← runtime box
  replace box fun row => { row with
    windowSkippedMembers := boxRow.windowSkippedMembers ∪ {member} }

/-- `record_iced_out`. -/
def recordIcedOut (box member : String) : RuntimeM τ ω Unit := do
  let boxRow ← runtime box
  replace box fun row => { row with icedOutMembers := boxRow.icedOutMembers ∪ {member} }

/-- `void_resolution`. -/
def voidResolution (box member : String) : RuntimeM τ ω Unit := do
  let marks := (← runtime box).windowSkippedMembers
  if member ∈ marks then replace box fun row => { row with windowSkippedMembers := marks \ {member} }

/-- `seed_job`. -/
def seedJob (job : String) (onIce onHold onNoexec : Bool) : RuntimeM τ ω Unit :=
  replace job fun row => { row with onIce, onHold, onNoexec }

/-- `set_global`. -/
def setGlobal (name value : String) : RuntimeM τ ω Unit := do
  touch (.global name)
  modify fun s => { s with
    globals := s.globals.set name
      { value, stateRev := ((s.globals.get? name).map (·.stateRev)).getD 0 } }

/-! ## Capacity -/

/-- `reserve`. -/
def reserve (job : String) (reservations : List CapacityReservation) : RuntimeM τ ω Unit := do
  let row ← runtime job
  if row.reservations ≠ [] then throw (.alreadyHolds job)
  replace job fun row => { row with reservations }

/-- `take_over_held`. -/
def takeOverHeld (job : String) (reservations : List CapacityReservation) : RuntimeM τ ω Unit := do
  let row ← runtime job
  if row.status.live then throw (.liveStart job row.status)
  replace job fun row => { row with reservations }

/-- Spend a reservation's units. -/
def spend (consumed : Dict String Int) (r : CapacityReservation) : Dict String Int :=
  consumed.set r.bucket ((consumed.get? r.bucket).getD 0 + r.units)

/-- `release_reservations`. -/
def releaseReservations (job : String) (newStatus : JobStatus)
    (keepsHeld : Option (String → Bool)) : RuntimeM τ ω Unit := do
  let row ← runtime job
  if row.reservations ≠ [] then do
    let settled := unreleased (newStatus = .success) keepsHeld row.reservations
    replace job fun row => { row with reservations := settled.1 }
    modify fun s => { s with consumed := settled.2.foldl spend s.consumed }

/-- `release_held`: the units given back. -/
def releaseHeld (job : String) : RuntimeM τ ω (List CapacityReservation) := do
  let row ← runtime job
  if row.status.live then throw (.liveRelease job row.status)
  replace job fun row => { row with reservations := [] }
  return row.reservations

/-- `enqueue_waiter`. -/
def enqueueWaiter (job : String) : RuntimeM τ ω Unit := do
  let row ← runtime job
  if row.waiterSeq = none then do
    let s ← get
    let rank := s.enqueueCounter + 1
    replace job fun row => { row with waiterSeq := some rank }
    modify fun s => { s with enqueueCounter := rank }

/-- `dequeue_waiter`. -/
def dequeueWaiter (job : String) : RuntimeM τ ω Unit :=
  replace job fun row => { row with waiterSeq := none }

/-- `seed_consumed`. -/
def seedConsumed (consumed : Dict String Int) : RuntimeM τ ω Unit := do
  raiseIf (consumed.entries.findSome? fun e =>
    if e.2 < 0 then some (.negativeConsumed e.1 e.2) else none)
  modify fun s => { s with consumed }

/-! ## Timers -/

/-- Touch the job a timer belongs to. -/
def touchJob : Option String → RuntimeM τ ω Unit
  | some job => touch (.job job)
  | none => pure ()

/-- `enqueue_timer`: the token of the new timer. -/
def enqueueTimer (due : τ) (event : Event τ ω) : RuntimeM τ ω Nat := do
  touchJob event.job
  modify fun s => { s with
    timerSeq := s.timerSeq + 1
    timers := s.timers.push { due, token := s.timerSeq + 1, event } }
  return (← get).timerSeq

/-- `pop_timer_due`: the earliest timer due at or before an instant. -/
def popTimerDue (at_ : τ) : RuntimeM τ ω (Option (τ × Event τ ω)) := do
  let s ← get
  match s.timers.entries with
  | [] => return none
  | t :: _ =>
    if at_ < t.due then return none
    else do
      touchJob t.event.job
      modify fun s => { s with timers := s.timers.pop }
      return some (t.due, t.event)

/-! ## Between inputs -/

/-- `require_between_inputs`. -/
def requireBetweenInputs (verb job : String) : RuntimeM τ ω Unit := do
  let s ← get
  if s.phase.isOpen then throw (.insideInput verb job)

/-- A live run's units settle as an end that is not SUCCESS. -/
def settleLive (job : String) (row : JobRuntime τ) (keepsHeld : Option (String → Bool)) :
    RuntimeM τ ω Unit :=
  if row.status.live then releaseReservations job .terminated keepsHeld else pure ()

/-- `retire_job`: the tombstone. -/
def retireJob (job : String) (keepsHeld : Option (String → Bool)) :
    RuntimeM τ ω (JobRuntime τ) := do
  requireBetweenInputs "retire_job" job
  let s ← get
  match s.jobs.get? job with
  | none => throw (.retireWithoutRow job)
  | some row =>
    settleLive job row keepsHeld
    let s ← get
    let tombstone := { s.row job with reservations := [], waiterSeq := none }
    modify fun s => { s with
      jobs := s.jobs.erase job
      tombstones := s.tombstones.set job tombstone
      timers := s.timers.keep fun t => t.event.job ≠ some job }
    return tombstone

/-- `admit_job`. -/
def admitJob (job : String) (onIce onHold onNoexec : Bool) : RuntimeM τ ω Unit := do
  requireBetweenInputs "admit_job" job
  let s ← get
  if (s.jobs.get? job).isSome then throw (.admitOverRow job)
  let carried : JobRuntime τ := match s.tombstones.get? job with
    | none => {}
    | some tombstone =>
      { runNumber := tombstone.runNumber, stateRev := tombstone.stateRev + 1 }
  modify fun s => { s with
    tombstones := s.tombstones.erase job
    jobs := s.jobs.set job { carried with onIce, onHold, onNoexec } }

/-- `rebuild_machines`: an instance for each row, in the rows' order. -/
def rebuildInstances (f : JobInstance τ) (jobs : Dict String (JobRuntime τ)) :
    Except StateMachine.StatechartError (String → Option (Finset StateMachine.Name)) :=
  jobs.entries.foldlM (fun instances e => restoreJob f e.1 e.2 instances) fun _ => none

/-- `restore_instances`. -/
def restoreInstances : RuntimeM τ ω Unit := do
  let s ← get
  match s.jobInstance with
  | none => modify fun s => { s with instances := fun _ => none }
  | some f =>
    match rebuildInstances f s.jobs with
    | .ok instances => modify fun s => { s with instances }
    | .error e => throw (.statechart e)

/-- `keep_job_instances`. -/
def keepJobInstances (f : JobInstance τ) : RuntimeM τ ω Unit := do
  modify fun s => { s with jobInstance := some f }
  restoreInstances

/-- The tier's chart moves a job's instance. -/
def moveInstance (job : String) (active : Finset StateMachine.Name) : RuntimeM τ ω Unit :=
  modify fun s => { s with instances := Function.update s.instances job (some active) }

/-- `install`. -/
def install (carried : CarriedRows τ ω) : RuntimeM τ ω Unit := do
  assemble .install
  modify fun s => { s with jobs := carried.jobs, globals := carried.globals }
  restoreInstances
  modify fun s => { s with
    timers := Timers.ofList carried.timers
    timerSeq := carried.timerSeq
    consumed := carried.consumed
    enqueueCounter := carried.enqueueCounter
    tombstones := carried.tombstones }

/-- `finish_genesis`. -/
def finishGenesis : RuntimeM τ ω Unit := assemble .finishGenesis

/-- `_read_assembly`: raise the refusal a verb would meet; the phase does not move. -/
def readAssembly (event : AssemblyEvent) : RuntimeM τ ω Unit := do
  let s ← get
  match s.phase.assemble event with
  | .ok _ => pure ()
  | .error code => throw (.refused (code.raised s.phase).1 (code.raised s.phase).2)

/-- `seed_period`. -/
def seedPeriod (periodId : Int) : RuntimeM τ ω Unit := do
  readAssembly .seedPeriod
  if periodId < 1 then throw (.periodBelowOne periodId)
  assemble .seedPeriod
  modify fun s => { s with periodId }

end RuntimeState

/-! ## Runs -/

/-- A call of a verb, with its arguments. The commit is not among them. -/
inductive Verb (τ ω : Type) where
  | runtime (job : String)
  | transition (job : String) (status : JobStatus) (at_ : Option τ) (exitCode : Option Int)
      (clearExitCode : Bool)
  | startRun (job cause : String) (box : Option String) (isBox : Bool)
  | moveFlag (job : String) (target : FlagState)
  | clearExitCode (job : String)
  | recordResolution (box member : String)
  | recordIcedOut (box member : String)
  | voidResolution (box member : String)
  | seedJob (job : String) (onIce onHold onNoexec : Bool)
  | setGlobal (name value : String)
  | reserve (job : String) (reservations : List CapacityReservation)
  | takeOverHeld (job : String) (reservations : List CapacityReservation)
  | releaseReservations (job : String) (newStatus : JobStatus) (keepsHeld : Option (String → Bool))
  | releaseHeld (job : String)
  | enqueueWaiter (job : String)
  | dequeueWaiter (job : String)
  | seedConsumed (consumed : Dict String Int)
  | enqueueTimer (due : τ) (event : Event τ ω)
  | popTimerDue (at_ : τ)
  | beginInput
  | retireJob (job : String) (keepsHeld : Option (String → Bool))
  | admitJob (job : String) (onIce onHold onNoexec : Bool)
  | restoreInstances
  | keepJobInstances (f : JobInstance τ)
  | moveInstance (job : String) (active : Finset StateMachine.Name)
  | install (carried : CarriedRows τ ω)
  | finishGenesis
  | seedPeriod (periodId : Int)

open RuntimeState in
/-- What a call does. -/
def Verb.call : Verb τ ω → RuntimeM τ ω Unit
  | runtime job => discard (RuntimeState.runtime job)
  | transition job status at_ exitCode clear => RuntimeState.transition job status at_ exitCode clear
  | startRun job cause box isBox => RuntimeState.startRun job cause box isBox
  | moveFlag job target => RuntimeState.moveFlag job target
  | clearExitCode job => RuntimeState.clearExitCode job
  | recordResolution box member => RuntimeState.recordResolution box member
  | recordIcedOut box member => RuntimeState.recordIcedOut box member
  | voidResolution box member => RuntimeState.voidResolution box member
  | seedJob job onIce onHold onNoexec => RuntimeState.seedJob job onIce onHold onNoexec
  | setGlobal name value => RuntimeState.setGlobal name value
  | reserve job reservations => RuntimeState.reserve job reservations
  | takeOverHeld job reservations => RuntimeState.takeOverHeld job reservations
  | releaseReservations job status keepsHeld =>
    RuntimeState.releaseReservations job status keepsHeld
  | releaseHeld job => discard (RuntimeState.releaseHeld job)
  | enqueueWaiter job => RuntimeState.enqueueWaiter job
  | dequeueWaiter job => RuntimeState.dequeueWaiter job
  | seedConsumed consumed => RuntimeState.seedConsumed consumed
  | enqueueTimer due event => discard (RuntimeState.enqueueTimer due event)
  | popTimerDue at_ => discard (RuntimeState.popTimerDue at_)
  | beginInput => RuntimeState.beginInput
  | retireJob job keepsHeld => discard (RuntimeState.retireJob job keepsHeld)
  | admitJob job onIce onHold onNoexec => RuntimeState.admitJob job onIce onHold onNoexec
  | restoreInstances => RuntimeState.restoreInstances
  | keepJobInstances f => RuntimeState.keepJobInstances f
  | moveInstance job active => RuntimeState.moveInstance job active
  | install carried => RuntimeState.install carried
  | finishGenesis => RuntimeState.finishGenesis
  | seedPeriod periodId => RuntimeState.seedPeriod periodId

/-- The state after a list of calls, whether each returned or raised. -/
def runVerbs (s : RuntimeState τ ω) (verbs : List (Verb τ ω)) : RuntimeState τ ω :=
  verbs.foldl (fun s v => v.call.after s) s

end Dsl41.Store
