import Dsl41.Oracle.Writers

/-!
# The hook

What the executor's caller does with the outcome of a microstep, before the next item pops: the
fired rows' writes, the status their entries reported, then the other intents. A raise of the
hook stays in the world, and the loop that drives the executor stops at it.
-/

namespace Dsl41.Oracle

open Dsl41.Infra Dsl41.Store
open Dsl41.StateMachine (Name Records)

/-! ## The records of a cascade -/

namespace Cascade

variable (c : Cascade)

def setMove (id : MoveId) (f : Move → Move) : Cascade := { c with moves := c.moves.modify id f }

/-- A row of a batch's first phase. -/
def joinBatch (batch : BatchId) (id : MoveId) : Cascade :=
  { c with batches := c.batches.modify batch fun b => { b with rows := b.rows ++ [id] } }

/-- A late settlement waits for its move's box rules. -/
def registerLate (job : String) (id : MoveId) : Cascade :=
  { c with late := c.late.set job ((c.late.get? job).getD [] ++ [id]) }

/-- A late settlement leaves the registry, and with its last one its job. -/
def unregister (id : MoveId) : Cascade :=
  let late := c.late.mapValues (·.filter (· ≠ id))
  { c with late := late.keep fun job => late.get? job ≠ some [] }

end Cascade

/-! ## Writes -/

def Write.run : Write → WorldM Unit
  | .verb call => onStore call.call
  | .record job transition cause => Oracle.record job transition cause
  | .deferStart job nextOpen cause => Oracle.deferStart job nextOpen cause
  | .deferToOpening job cause => deferToNextOpening job cause
  | .armTermRunTime job => Oracle.armTermRunTime job
  | .released id => onCascade (·.setMove id fun m => { m with released := true })
  | .unregister id => onCascade (·.unregister id)

def runWrites : List Write → WorldM Unit
  | [] => pure ()
  | write :: writes => do
    write.run
    runWrites writes

/-- What a pure step raises. -/
def raising {α : Type} : Except OracleError α → WorldM α
  | .ok a => pure a
  | .error e => throw e

/-- `_write`: a status write, its line and its emission. -/
def writeStatus (job : String) (new : JobStatus) (line : StatusLine) : WorldM Unit := do
  let w ← get
  let old := w.view.status job
  onStore (RuntimeState.transition job new w.now line.code line.clear)
  record job (statusName old ++ "->" ++ statusName new) line.cause
  if line.kill then
    modify fun w => { w with killEmissions := w.killEmissions ++ [w.emitted.length] }
  emit .status
    (((∅ : Dict String (Value Scalar)).set "job" (.text job)).set "status"
      (.text (statusName new)))

/-! ## The fired rows -/

/-- `_NOEXEC_HOLDS`. -/
def noexecHolds : List Name := ["job.207", "job.232"]

/-- ON_NOEXEC's hold rows come after its flag's. -/
def rowOrder (rows : List Name) : List Name :=
  if 1 < rows.length ∧ rows.any (· ∈ noexecHolds) then
    rows.filter (· ∉ noexecHolds) ++ rows.filter (· ∈ noexecHolds)
  else rows

/-- `_BOX_ROWS`: the rows whose path the job type decides, and whether each is a box's. -/
def BOX_ROWS : List (Name × Bool) :=
  [("job.102", false), ("job.124", true), ("job.105", false), ("job.125", true),
    ("job.113", false), ("job.120", false), ("job.121", false), ("job.135", true),
    ("job.452", true)]

/-- `_MEMBER_ROWS`: a skip's rows, and whether each is a member's. -/
def MEMBER_ROWS : List (Name × Bool) := [("job.106", false), ("job.107", true), ("job.404", true)]

/-- `_check_type`. -/
def checkType (v : View) (job : String) (row : Name) : Option OracleError :=
  if (List.lookup row BOX_ROWS).any (· ≠ v.isBox job) then
    some (.hook job (row ++ " fired for a " ++ (if v.isBox job then "BOX" else "non-box") ++ " job"))
  else if (List.lookup row MEMBER_ROWS).any (· ≠ (v.boxOf job).isSome) then
    some (.hook job (row ++ " fired for a job in box " ++ quotedOption (v.boxOf job)))
  else none

/-- One fired row's writes, and the line of the status it entered. -/
def writeRow (job : String) (out : Out) (active : Finset Name) (row : Name) :
    WorldM (Option StatusLine) := do
  match List.lookup row WRITERS with
  | none => throw (.hook job (out.event.name ++ " fired a row the oracle does not write: " ++ row))
  | some writer =>
    let view := (← get).view
    match checkType view job row with
    | some e => throw e
    | none =>
      let written ← raising (writer { view, job, out, active })
      runWrites written.writes
      return written.line

/-- The fired rows' writes, with the lines they gave. -/
def writeEach (job : String) (out : Out) (active : Finset Name) :
    List Name → WorldM (List StatusLine)
  | [] => pure []
  | row :: rows => do
    let line ← writeRow job out active row
    let lines ← writeEach job out active rows
    return line.toList ++ lines

/-- The statuses a microstep's entries reported. -/
def enteredOf (intents : List Payload) : List JobStatus :=
  intents.filterMap fun
    | .intent (.entered status) => some status
    | _ => none

def writeStatuses (job : String) : List (JobStatus × StatusLine) → WorldM Unit
  | [] => pure ()
  | (status, line) :: rest => do
    writeStatus job status line
    writeStatuses job rest

/-- `_check_arm`: the arm the fired rows declare. -/
def declaredArm (rows : List Name) (before : Bool) : Bool :=
  if rows.any (· ∈ ARM_LATCHES) then true
  else if rows.any (· ∈ ARM_CLEARS) then false
  else before

/-- `_write_rows`. -/
def writeRows (job : String) (out : Out) (active : Finset Name) : WorldM Unit := do
  let armed := (← get).view.armed job
  let lines ← writeEach job out active (rowOrder out.rows)
  let entered := enteredOf out.intents
  if lines.length ≠ entered.length then
    throw (.hook job (out.event.name ++ " entered statuses and gave lines that do not pair"))
  writeStatuses job (entered.zip lines)
  if (← get).view.armed job ≠ declaredArm out.rows armed then
    throw (.hook job (out.event.name ++ " left an arm its rows do not declare (DL-365)"))

/-! ## The intents -/

/-- `Move.apply`. -/
def applyMove (id : MoveId) : WorldM Unit := do
  let v := (← get).view
  match v.cascade.moves[id]? with
  | none => throw (.hook "" "a move with no record")
  | some move =>
    let new := v.status move.job
    onCascade (·.setMove id fun m => { m with new })
    if v.boxStopped move.job move.old new then onCascade fun c => { c with scanOwed := true }
    match move.batch with
    | some batch =>
      runWrites (dropRank v move.job)
      onCascade (·.joinBatch batch id)
    | none =>
      if move.old.live && !new.live then onCascade (·.registerLate move.job id)

/-- `Register.apply`. -/
def registerStart (box : String) (run : Int) (cause : String) : WorldM Unit := do
  match (← get).cascade.windowStarts with
  | none => throw (.oracle "a box run registered with no window pass pending")
  | some starts =>
    onCascade fun c => { c with windowStarts := some (starts ++ [(box, run, cause)]) }

/-- `SettledEarly.apply`. -/
def applySettledEarly (id : MoveId) : WorldM Unit := do
  let v := (← get).view
  match v.cascade.moves[id]? with
  | none => throw (.hook "" "a move with no record")
  | some move =>
    onCascade (·.setMove id fun m => { m with done := true })
    runWrites (dropRank v move.job)

/-- `ClearCodes.apply`. -/
def codeWrites (v : View) (jobs : List String) : List Write :=
  (jobs.filter fun job => v.status job = .inactive && (v.row job).exitCode.isSome).map fun job =>
    .verb (.clearExitCode job)

/-- `Intent.apply`. -/
def Intent.apply : Intent → WorldM Unit
  | .entered _ => pure ()
  | .move id => applyMove id
  | .readmitted => onCascade fun c => { c with readmitted := true }
  | .clearReadmitted => onCascade fun c => { c with readmitted := false }
  | .scanState owed => onCascade fun c => { c with scanOwed := owed }
  | .openPass => onCascade fun c => { c with windowStarts := some [] }
  | .register box run cause => registerStart box run cause
  | .closePass => onCascade fun c => { c with windowStarts := none }
  | .settledEarly id => applySettledEarly id
  | .clearCodes jobs => do runWrites (codeWrites (← get).view jobs)
  | .deferToOpening job cause => deferToNextOpening job cause

def applyIntents : List Payload → WorldM Unit
  | [] => pure ()
  | .intent i :: rest => do
    i.apply
    applyIntents rest
  | _ :: rest => applyIntents rest

/-! ## The hook -/

/-- The item counts against the cap. -/
def countItem : WorldM Unit := do
  modify fun w => { w with items := w.items + 1 }
  let w ← get
  if w.cap ≤ w.items then
    throw (.cascadeDepth (w.rooted.elim "" (·.1)) (w.rooted.elim "" (·.2)) w.cap)

/-- The configuration the executor holds for a job, on the owner's side. -/
def mirror (job : String) (active : Finset Name) : WorldM Unit :=
  onStore (RuntimeState.moveInstance job active)

/-- `_perform`: the scan's coordinator moves no job row. -/
def perform (out : Out) (active : Finset Name) : WorldM Unit := do
  match out.key with
  | .scan => countItem
  | .job job =>
    mirror job active
    countItem
    modify fun w => { w with reached := if job ∈ w.reached then w.reached else w.reached ++ [job] }
    writeRows job out active
  applyIntents out.intents

/-- What a computation leaves, with its raise in the world. -/
def World.afterHook (w : World) (m : WorldM Unit) : World :=
  match m.result w with
  | .ok _ => m.after w
  | .error e => (m.after w).raise e

/-- The executor's hook. An item whose action raised is not performed. -/
def hook (out : Out) (r : Records Key Payload World) : World :=
  if r.world.raised.isSome then r.world
  else r.world.afterHook (perform out (((r.instances out.key).map (·.active)).getD ∅))

end Dsl41.Oracle
