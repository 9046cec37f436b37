import Dsl41.Oracle.ScanChart

/-!
# The writes of the rows

What each fired row of the `job` chart reached. A writer reads the view and gives the writes of
its row, in their order, with the line of the status its row entered; the hook performs them. The
status a status state's entry reported is written after the rows' writes, with the line.
-/

namespace Dsl41.Oracle

open Dsl41.Infra Dsl41.Store
open Dsl41.StateMachine (Name)

/-- The result of one microstep. -/
abbrev Out := StateMachine.Outcome Key Payload

/-- One write of a row. -/
inductive Write where
  | verb (call : Verb Instant Scalar)
  | record (job transition cause : String)
  | deferStart (job : String) (nextOpen : Instant) (cause : String)
  | deferToOpening (job cause : String)
  | armTermRunTime (job : String)
  -- the settlement of a move released its units; its late settlement leaves the registry
  | released (move : MoveId)
  | unregister (move : MoveId)

/-- `StatusLine`: what the writer of a row that enters a status gives its status write. -/
structure StatusLine where
  cause : String
  code : Option Int := none
  clear : Bool := false
  kill : Bool := false

/-- What a writer gives. -/
structure Written where
  writes : List Write := []
  line : Option StatusLine := none

/-- What a writer reads: the view, the job, the outcome and the configuration it left. -/
structure Firing where
  view : View
  job : String
  out : Out
  active : Finset Name

abbrev Writer := Firing → Except OracleError Written

namespace Firing

variable (f : Firing)

def row : JobFields Instant := f.view.row f.job
def box : Option String := f.view.boxOf f.job

/-- The fired row of a microstep that fires one. -/
def firstRow : Name := f.out.rows.headD ""

/-- The payload is not the one the writer reads. -/
def misread {α : Type} : Except OracleError α :=
  .error (.hook f.job "a row fired with a payload of another event")

def attempt : Except OracleError StartFacts :=
  match f.out.event.payload with
  | .start a => .ok a
  | _ => f.misread

def admission : Except OracleError AdmissionFacts :=
  match f.out.event.payload with
  | .admission a => .ok a
  | _ => f.misread

def rule : Except OracleError Rule :=
  match f.out.event.payload with
  | .rule r => .ok r
  | _ => f.misread

def statusInput : Except OracleError StatusInput :=
  match f.out.event.payload with
  | .statusInput i => .ok i
  | _ => f.misread

/-- The box of the batch a rule belongs to, and the batch. -/
def batch : Except OracleError Batch := do
  match (← f.rule).batch.bind fun id => f.view.cascade.batches[id]? with
  | some batch => return batch
  | none => f.misread

end Firing

/-! ## Pieces -/

def moveFlag (job : String) (target : FlagState) : Write := .verb (.moveFlag job target)
def dequeue (job : String) : Write := .verb (.dequeueWaiter job)

/-- `_flag`. -/
def flag (job : String) (target : FlagState) (marker cause : String) : List Write :=
  [moveFlag job target, .record job marker cause]

/-- `_drop_rank`: a row that left QUE_WAIT drops its rank. -/
def dropRank (v : View) (job : String) : List Write :=
  if v.status job ≠ .queWait && (v.row job).waiterSeq.isSome then [dequeue job] else []

/-- `_mark_resolved`. -/
def markResolved (v : View) (job : String) : List Write :=
  match v.boxOf job with
  | some box => if v.status box = .running then [.verb (.recordResolution box job)] else []
  | none => []

/-- `_skip_line`. -/
def skipLine (job : String) (attempt : StartFacts) : Write :=
  .record job "RUN_WINDOW_SKIP"
    ("outside run_window; closer to previous close -- not run (" ++ attempt.cause ++ ")")

/-- `_refusal`. -/
def refusal (f : Firing) : String :=
  let box := quotedOption f.box
  if liveOrQueued f.row.status then
    "already " ++ statusName f.row.status ++ " -- concurrent or repeated start request, no effect"
  else
    match f.view.boxGate f.job with
    | .idle => "box " ++ box ++ " is not RUNNING -- rerun needs FORCE_STARTJOB (SEM-10)"
    | .ran => "already ran in this " ++ box ++
        " execution -- rerun needs FORCE_STARTJOB (SEM-10)"
    | _ => "taken off ice during this " ++ box ++ " execution -- it waits for the" ++
        " box's next run; a start now needs FORCE_STARTJOB (SEM-20)"

/-- The units some reservations hold, as a line names them. -/
def unitsText (held : List CapacityReservation) : String :=
  ", ".intercalate (held.map fun r => toString r.units ++ " of " ++ (r.bucket.drop 2).toString)

/-- `_oob_ignored`. -/
def oobIgnored (v : View) (event : Name) (job : String) : Option String :=
  let row := v.row job
  if event = ON_ICE ∨ event = ON_HOLD then
    if row.status.live then
      some ("sendevent " ++ event ++ " ignored: the job is " ++ statusName row.status ++ " (DL-254)")
    else none
  else
    let own := noexecOwnReason (rowConfiguration row) (v.isBox job)
    let why := own.or (if v.isBox job then v.busyContained (v.contained job false) else none)
    why.map fun why => "sendevent ON_NOEXEC ignored: " ++ why ++ " (DL-254)"

/-- `_off_ice_in_running_box`: the box whose run the job sits out. -/
def offIceInRunningBox (v : View) (job : String) : Option String :=
  if v.semantics.offIceInRunningBox ≠ .nextRun then none
  else (v.boxOf job).filter fun box =>
    v.status box = .running && job ∉ (v.row box).ranMembers

/-! ## The writers -/

/-- A row that gives a status its line. -/
def entersWith (line : StatusLine) (writes : List Write := []) : Except OracleError Written :=
  .ok { writes, line := some line }

/-- A row that enters no status. -/
def writesOnly (writes : List Write) : Except OracleError Written := .ok { writes }

def wNothing : Writer := fun _ => writesOnly []

/-! ### Start attempts -/

def wBounded : Writer := fun f => do
  let a ← f.attempt
  writesOnly [.record f.job "START_REFUSED"
    ("re-trigger loop inside one instant: started twice in one nested cascade; refused (L010; " ++
      a.cause ++ ")")]

def wBypass : Writer := fun f => do
  let a ← f.attempt
  entersWith { cause := "ON_NOEXEC bypass (" ++ a.cause ++ ")" }

/-- A rank the row still carries is an earlier QUE_WAIT's: it drops first. -/
def wQueue : Writer := fun f => do
  let a ← f.attempt
  entersWith { cause := "waiting for resources (" ++ a.cause ++ ")" }
    (dropRank f.view f.job ++ [.verb (.enqueueWaiter f.job)])

def wSkip : Writer := fun f => do
  let a ← f.attempt
  entersWith { cause := "run_window skip: closer to previous close (SEM-33, DL-246)" }
    [skipLine f.job a]

/-- The line and the mark of a member's skip. -/
def skipInBox (f : Firing) (a : StartFacts) : List Write :=
  skipLine f.job a :: f.box.elim [] fun box => [.verb (.recordResolution box f.job)]

def wSkipMember : Writer := fun f => do
  let a ← f.attempt
  entersWith
    { cause := "run_window skip bypasses inside box " ++ quotedOption f.box ++ " (SEM-33, DL-154)" }
    (skipInBox f a)

def wSkipInactiveMember : Writer := fun f => do
  writesOnly (skipInBox f (← f.attempt))

def wRefused : Writer := fun f => do
  let a ← f.attempt
  let reason := match a.refusal.filter (· ≠ "") with
    | some text => text
    | none => refusal f ++ " (" ++ a.cause ++ ")"
  writesOnly [.record f.job "START_REFUSED" reason]

/-- A gate holds the attempt silently; a scan continuation resumes; outside the window, a
postponed start is queued, or a skip that moves nothing writes its line. -/
def wStartIgnored : Writer := fun f => do
  let a ← f.attempt
  if a.rescan then return { writes := [.deferToOpening f.job a.cause] }
  match windowRead f.active a f.view with
  | some (.defer, some nextOpen) => writesOnly [.deferStart f.job nextOpen a.cause]
  | some (.skip, _) => writesOnly [skipLine f.job a]
  | _ => writesOnly []

def wArm : Writer := fun f =>
  let why := if f.row.onHold then "blocked ON_HOLD" else "condition false"
  writesOnly (flag f.job .armOn "SCHED_ARM"
    ("scheduled tick " ++ why ++ "; armed (SEM-32, DL-54/58)"))

def wForceIce : Writer := fun f => do
  let a ← f.attempt
  writesOnly (flag f.job .iceOff "OFF_ICE"
    ("FORCE_STARTJOB clears ON_ICE (SEM-23, DL-243; " ++ a.cause ++ ")"))

def wForceHold : Writer := fun f => do
  let a ← f.attempt
  writesOnly (flag f.job .holdOff "OFF_HOLD"
    ("FORCE_STARTJOB clears ON_HOLD (SEM-23, DL-243; " ++ a.cause ++ ")"))

/-! ### Runs -/

def wStarting : Writer := fun f =>
  match f.view.admissionOf f.out.event.payload with
  | some admission => entersWith { cause := admission.cause }
  | none => f.misread

def wRunning : Writer := fun f =>
  match f.out.event.payload with
  | .started s =>
    entersWith { cause := if s.hadDemand then "admitted: resources acquired (DL-50)"
      else "QUE_WAIT collapses to immediate (ss7 non-goal)" }
  | _ => f.misread

def wActualStart : Writer := fun f =>
  match f.out.event.payload, f.view.ir? f.job with
  | .runStart run, some ir =>
    writesOnly ((if run.arm then [.armTermRunTime f.job] else []) ++
      [.verb (.startRun f.job run.cause ir.box.boxName ir.isBox)])
  | .runStart _, none => .error (.keyError f.job)
  | _, _ => f.misread

/-! ### Units -/

def wReserve : Writer := fun f => do
  writesOnly [.verb (.reserve f.job (toReservations (← f.admission).vector))]

def wTakeOver : Writer := fun f => do
  writesOnly [.verb (.takeOverHeld f.job (toReservations (← f.admission).vector))]

def wOnHeld : Writer := fun f => do
  let load := toReservations (machineLoad (← f.admission).vector)
  writesOnly [.verb (.takeOverHeld f.job (f.row.reservations ++ load))]

def wLeaveLive : Writer := fun f =>
  match f.out.event.payload with
  | .settlement s =>
    match s.move.bind fun id => (f.view.cascade.moves[id]?).map fun m => (id, m) with
    | some (id, move) =>
      writesOnly [.verb (.releaseReservations f.job move.new (some f.view.pool.keepsHeld)),
        .released id]
    | none => .error (.hook f.job "no settlement with no move the oracle writes")
  | _ => f.misread

/-- `settle`: the late settlement leaves the registry, and the rank the move left drops, unless the
run settled early. -/
def wSettle : Writer := fun f =>
  match f.out.event.payload with
  | .settle id =>
    let done := (f.view.cascade.moves[id]?).any (·.done)
    writesOnly (.unregister id :: if done then [] else dropRank f.view f.job)
  | _ => f.misread

def wReleased : Writer := fun f =>
  writesOnly [.verb (.releaseHeld f.job), .record f.job "RELEASE_RESOURCE"
    ("sendevent RELEASE_RESOURCE (frees " ++ unitsText f.row.reservations ++ ")")]

def wReleaseIgnored : Writer := fun f =>
  let why := if f.row.status.live then
      "no effect: " ++ statusName f.row.status ++ "; the run's units go back when it ends"
    else "nothing held"
  writesOnly [.record f.job "RELEASE_RESOURCE" ("sendevent RELEASE_RESOURCE (" ++ why ++ ")")]

def wOpening : Writer := fun f =>
  writesOnly [.verb (.releaseHeld f.job), .record f.job "RELEASE_RESOURCE"
    ("job removed from the catalog: its held units go back at the period opening (frees " ++
      unitsText f.row.reservations ++ "; DL-256)")]

/-! ### The queue -/

def wReadmit : Writer := fun f => writesOnly [dequeue f.job]

def wCancel : Writer := fun f =>
  entersWith
    { cause := "QUE_WAIT cancelled: box " ++ quotedOption f.box ++ " no longer RUNNING (DL-50)" }
    [dequeue f.job]

def wLeft : Writer := fun f =>
  match f.view.queuedRecheck f.job with
  | some (some (_, why)) =>
    entersWith { cause := f.view.leftCause why }
      (dequeue f.job :: f.box.elim [] fun box => [.verb (.voidResolution box f.job)])
  | _ => .error (.clock f.job)

/-- The waiter's arm drops with its line, then it leaves the queue. -/
def wLeftArmed : Writer := fun f => do
  let left ← wLeft f
  let cause := "left QUE_WAIT unstarted; waits for its next start time (queued-recheck=" ++
    f.view.semantics.queuedRecheck.text ++ ", DL-257)"
  return { left with writes := flag f.job .armOff "SCHED_DISARM" cause ++ left.writes }

def wKillWaiter : Writer := fun f =>
  entersWith { cause := "KILLJOB (dequeued from QUE_WAIT, DL-50)", kill := true }
    [dequeue f.job, moveFlag f.job .armOff]

def wIcedWaiter : Writer := fun f =>
  entersWith { cause := "iced while queued (DL-50)" } [dequeue f.job]

def wNoexecWaiter : Writer := fun f =>
  entersWith { cause := "ON_NOEXEC takes a queued job out of the queue (DL-254)", clear := true }
    (dequeue f.job :: markResolved f.view f.job)

/-! ### Operator moves -/

def wNoexecFailed : Writer := fun f =>
  entersWith { cause := "ON_NOEXEC settles a completed job to INACTIVE (DL-243)", clear := true }
    (markResolved f.view f.job)

def wNoexecBox : Writer := fun f =>
  entersWith { cause := "ON_NOEXEC on a box: CHANGE_STATUS INACTIVE (DL-254)", clear := true }
    (markResolved f.view f.job)

def wKill : Writer := fun _ => entersWith { cause := "KILLJOB", kill := true }

def wKillIgnored : Writer := fun f =>
  writesOnly [.record f.job "EVENT_IGNORED"
    ("KILLJOB ignored: the job is " ++ statusName f.row.status ++ ", not running or queued")]

def wTermRunTime : Writer := fun _ =>
  entersWith { cause := "term_run_time exceeded (dossier ss5)", kill := true }

def wJobTerminator : Writer := fun f => do
  let rule ← f.rule
  entersWith { cause := "job_terminator: box " ++ quoted rule.box ++ " ended", kill := true }

def wInjected : Writer := fun f => do
  entersWith { cause := "injected STATUS", code := (← f.statusInput).code }

def wInjectedInactive : Writer := fun f => do
  entersWith { cause := "injected STATUS", code := (← f.statusInput).code }
    (markResolved f.view f.job)

/-! ### Batches -/

def wReset : Writer := fun f => do
  let batch ← f.batch
  entersWith
    { cause := "box " ++ quoted batch.box ++
        " started: statuses from the previous box cycle are not retained (SEM-10, DL-242)"
      clear := true }

/-- A job already INACTIVE loses its exit code by a plain write. -/
def wResetInactive : Writer := fun f =>
  writesOnly (if f.row.status = .inactive && f.row.exitCode.isSome then
    [.verb (.clearExitCode f.job)] else [])

def wCascaded : Writer := fun f => do
  let batch ← f.batch
  entersWith
    { cause := "box " ++ quoted batch.box ++
        " set INACTIVE: cascades to every job it contains (SEM-18, DL-242)"
      clear := batch.clear }

/-! ### The box's rules -/

def wOverride : Writer := fun f =>
  match statusOf f.active with
  | some .success => entersWith { cause := "box_success override met (SEM-12)" }
  | some .failure => entersWith { cause := "box_failure override met (SEM-12)" }
  | _ => .error (.hook f.job "an override entered no verdict")

def wFold : Writer := fun f =>
  match f.out.event.payload with
  | .door facts =>
    let cause :=
      if f.firstRow = "job.129" then "default box fold: a member failed (SEM-11)"
      else if facts.atStart then "default box fold at box start: no member in the run (SEM-11)"
      else "default box fold: all members SUCCESS (SEM-11)"
    entersWith { cause }
  | _ => f.misread

def wBoxTerminator : Writer := fun f =>
  match f.out.event.payload with
  | .memberEnd e =>
    entersWith
      { cause := "box_terminator member " ++ quoted e.member ++ " ended " ++ statusName e.new ++
          " (SEM-14)"
        kill := true }
  | _ => f.misread

/-- `_OVERRIDE_RECOMPUTES`. -/
def overrideRecomputes : List Name := ["job.446", "job.447"]

def wRecompute : Writer := fun f =>
  match f.out.event.payload with
  | .recompute facts =>
    let why := if f.firstRow ∈ overrideRecomputes then "idle-box override recompute"
      else "idle-box recompute"
    entersWith { cause := why ++ " (SEM-15): " ++ facts.cause }
  | _ => f.misread

def wAutoHold : Writer := fun f =>
  writesOnly (flag f.job .holdOn "ON_HOLD" "auto_hold on box start (dossier ss5)")

def wBoxDisarms : Writer := fun f => do
  let rule ← f.rule
  writesOnly (flag f.job .armOff "SCHED_DISARM"
    ("unconsumed arm dies with box " ++ quoted rule.box ++ " run (Q3c pin, DL-54/58)"))

def wBoxNoexecFlag : Writer := fun f => do
  let rule ← f.rule
  writesOnly (flag f.job .noexecOn "ON_NOEXEC" ("box " ++ quoted rule.box ++ " put ON_NOEXEC (DL-254)"))

def wBoxNoexecOff : Writer := fun f => do
  let rule ← f.rule
  writesOnly (flag f.job .noexecOff "OFF_NOEXEC"
    ("box " ++ quoted rule.box ++ " taken OFF_NOEXEC (DL-254)"))

/-! ### The flags -/

/-- A flag's move with its line. -/
def wFlag (target : FlagState) (marker cause : String) : Writer := fun f =>
  writesOnly (flag f.job target marker cause)

def wNoexecHold : Writer :=
  wFlag .holdOff "OFF_HOLD" "ON_NOEXEC supersedes ON_HOLD (SEM-22, DL-254)"
def wIceOn : Writer := wFlag .iceOn "ON_ICE" "sendevent ON_ICE"
def wHoldOn : Writer := wFlag .holdOn "ON_HOLD" "sendevent ON_HOLD"
def wInterruptionHold : Writer := wFlag .holdOn "ON_HOLD" "interrupted attempt held (DL-424)"
def wHoldOff : Writer := wFlag .holdOff "OFF_HOLD" "sendevent OFF_HOLD"
def wNoexecOn : Writer := wFlag .noexecOn "ON_NOEXEC" "sendevent ON_NOEXEC"
def wNoexecOff : Writer := wFlag .noexecOff "OFF_NOEXEC" "sendevent OFF_NOEXEC"

/-- A member taken off ice in its running box sits that run out. -/
def wIceOff : Writer := fun f =>
  match if f.firstRow = "job.202" then offIceInRunningBox f.view f.job else none with
  | some box =>
    writesOnly [moveFlag f.job .iceOff, .verb (.recordIcedOut box f.job), .record f.job "OFF_ICE"
      ("sendevent OFF_ICE; taken off ice in its running box " ++ quoted box ++
        ": sits out this run (SEM-20)")]
  | none => writesOnly [moveFlag f.job .iceOff, .record f.job "OFF_ICE" "sendevent OFF_ICE"]

def wDisarm : Writer := fun f =>
  wFlag .armOff "DISARM"
    (if f.firstRow = "job.432" then "sendevent DISARM" else "sendevent DISARM (no latch)") f

def wFlagIgnored : Writer := fun f =>
  match oobIgnored f.view f.out.event.name f.job with
  | some why => writesOnly [.record f.job "EVENT_IGNORED" why]
  | none => .error (.hook f.job "no ignored line (the rules apply it) the oracle writes")

/-! ## The table -/

/-- `_WRITERS`. -/
def WRITERS : List (Name × Writer) := [
  ("job.100", wBounded),
  ("job.101", wBypass),
  ("job.102", wNothing),
  ("job.103", wQueue),
  ("job.104", wNothing),
  ("job.105", wRunning),
  ("job.106", wSkip),
  ("job.107", wSkipMember),
  ("job.108", wReadmit),
  ("job.109", wCancel),
  ("job.112", wIcedWaiter),
  ("job.113", wNoexecWaiter),
  ("job.114", wKill),
  ("job.115", wTermRunTime),
  ("job.116", wJobTerminator),
  ("job.117", wInjected),
  ("job.118", wInjected),
  ("job.119", wInjected),
  ("job.120", wInjectedInactive),
  ("job.121", wNoexecFailed),
  ("job.122", wReset),
  ("job.445", wCascaded),
  ("job.124", wNothing),
  ("job.125", wRunning),
  ("job.126", wOverride),
  ("job.127", wOverride),
  ("job.128", wFold),
  ("job.129", wFold),
  ("job.130", wBoxTerminator),
  ("job.446", wRecompute),
  ("job.447", wRecompute),
  ("job.448", wRecompute),
  ("job.449", wRecompute),
  ("job.135", wInjectedInactive),
  ("job.452", wNoexecBox),
  ("job.440", wKillIgnored),
  ("job.441", wRefused),
  ("job.442", wFlagIgnored),
  ("job.443", wFlagIgnored),
  ("job.444", wFlagIgnored),
  ("job.177", wNothing),
  ("job.178", wNothing),
  ("job.179", wNothing),
  ("job.181", wNothing),
  ("job.183", wNothing),
  ("job.184", wNothing),
  ("job.180", wStartIgnored),
  ("job.189", wNothing),
  ("job.191", wNothing),
  ("job.196", wNothing),
  ("job.197", wNothing),
  ("job.198", wNothing),
  ("job.451", wNothing),
  ("job.195", wResetInactive),
  ("job.201", wIceOn),
  ("job.202", wIceOff),
  ("job.203", wForceIce),
  ("job.204", wHoldOn),
  ("job.205", wHoldOff),
  ("job.206", wForceHold),
  ("job.207", wNoexecHold),
  ("job.208", wAutoHold),
  ("job.209", wNoexecOn),
  ("job.210", wNoexecOff),
  ("job.211", wBoxNoexecOff),
  ("job.218", wIceOn),
  ("job.219", wIceOff),
  ("job.220", wHoldOn),
  ("job.239", wInterruptionHold),
  ("job.221", wHoldOff),
  ("job.222", wNoexecOn),
  ("job.223", wNoexecOff),
  ("job.227", wNothing),
  ("job.229", wNothing),
  ("job.231", wBoxNoexecFlag),
  ("job.232", wNoexecHold),
  ("job.233", wBoxNoexecFlag),
  ("job.234", wIceOn),
  ("job.235", wHoldOn),
  ("job.236", wHoldOn),
  ("job.237", wHoldOff),
  ("job.238", wHoldOff),
  ("job.301", wReserve),
  ("job.302", wTakeOver),
  ("job.303", wOnHeld),
  ("job.304", wLeaveLive),
  ("job.305", wLeaveLive),
  ("job.306", wLeaveLive),
  ("job.307", wReleased),
  ("job.308", wOpening),
  ("job.311", wReserve),
  ("job.313", wNothing),
  ("job.319", wNothing),
  ("job.315", wReleaseIgnored),
  ("job.316", wReleaseIgnored),
  ("job.401", wNothing),
  ("job.402", wNothing),
  ("job.404", wSkipInactiveMember),
  ("job.405", wNothing),
  ("job.407", wNothing),
  ("job.408", wNothing),
  ("job.409", wNothing),
  ("job.411", wNothing),
  ("job.412", wNothing),
  ("job.413", wNothing),
  ("job.414", wNothing),
  ("job.415", wNothing),
  ("job.416", wNothing),
  ("job.417", wNothing),
  ("job.406", wSettle),
  ("job.418", wSettle),
  ("job.424", wNothing),
  ("job.425", wNothing),
  ("job.426", wNothing),
  ("job.427", wStarting),
  ("job.428", wStarting),
  ("job.429", wArm),
  ("job.430", wActualStart),
  ("job.431", wActualStart),
  ("job.432", wDisarm),
  ("job.433", wDisarm),
  ("job.434", wBoxDisarms),
  ("job.435", wNothing),
  ("job.436", wKillWaiter),
  ("job.437", wKillWaiter),
  ("job.438", wLeftArmed),
  ("job.439", wLeft),
  ("job.454", wNothing),
  ("job.455", wNothing),
  ("job.456", wNothing),
  ("job.457", wNothing),
  ("job.458", wNothing)]

end Dsl41.Oracle
