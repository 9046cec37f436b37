import Dsl41.Oracle.Facts
import Dsl41.Oracle.JobRows

/-!
# The guards of the job chart

What a start attempt and a readmission come to, and the guards of the rows. A guard reads the
instance's configuration, its data, the item's payload and, through the payload's job, the view of
the world. A fact that raises gives no verdict: no guard that reads it holds.
-/

namespace Dsl41.Oracle

open Dsl41.Store
open Dsl41.StateMachine (Context Guard Name)

/-- What a guard or an action of the two charts sees. -/
abbrev Ctx := Context Key Payload

/-- The instance's data. -/
def dataOf (ctx : Ctx) : JobData :=
  match ctx.data with
  | .data data => data
  | _ => {}

/-! ## The start attempt -/

/-- `MAX_NESTED_STARTS`. -/
def MAX_NESTED_STARTS : Nat := 2

inductive StartVerdict where
  | refused | ignored | arm | bounded | settleFirst | bypass | onHeld | queue | admits | skip
  | skipMember | skipInactiveMember
deriving DecidableEq, Repr

/-- `_nested_starts`. -/
def nestedStarts (ctx : Ctx) : Nat := ctx.count (ctx.key, START_ADMITTED)

/-- `_live_or_queued`. -/
def liveOrQueuedIn (active : Finset Name) : Bool :=
  "STARTING" ∈ active || "RUNNING" ∈ active || "QUE_WAIT" ∈ active

section Attempt

variable (attempt : StartFacts) (active : Finset Name) (v : View)

/-- `_superseded`. -/
def superseded : Bool := attempt.stale || (attempt.rescan && "INACTIVE" ∉ active)

/-- `_gate_unarmed_tick`. -/
def gateUnarmedTick : Bool :=
  v.dated attempt.job && !attempt.scheduled && !v.armed attempt.job

/-- `_gate_box_closed`. -/
def gateBoxClosed : Bool := v.boxGate attempt.job ∈ [BoxGate.idle, .ran, .icedOut]

/-- `_tick_latches`. -/
def tickLatches : Bool :=
  attempt.scheduled && v.dated attempt.job && !v.armed attempt.job &&
    v.boxGate attempt.job ≠ .idle

/-- `_latched`. -/
def latched : StartVerdict := if tickLatches attempt v then .arm else .ignored

/-- `_gated`: the gates a plain attempt meets, in order; none when all hold. -/
def gated : Option StartVerdict :=
  if "ice_on" ∈ active then some .ignored
  else if "hold_on" ∈ active then some (latched attempt v)
  else if gateUnarmedTick attempt v then some .ignored
  else if gateBoxClosed attempt v then some (if attempt.explicit then .refused else .ignored)
  else if !v.condition attempt.job then some (latched attempt v)
  else none

/-- `_member_of_running_box`. -/
def memberOfRunningBox : Bool := v.boxGate attempt.job ∈ [BoxGate.running, .icedOut]

/-- `_skipped`: outside the run window. -/
def skipped (window : WindowSide) : StartVerdict :=
  if window = .defer then .ignored
  else if "INACTIVE" ∈ active then
    if memberOfRunningBox attempt v then .skipInactiveMember else .ignored
  else if v.boxGate attempt.job = .none then .skip
  else if memberOfRunningBox attempt v then .skipMember
  else .ignored

/-- `_bypasses_on_noexec`. -/
def bypassesOnNoexec (box : Bool) : Bool :=
  !box && ("noexec_on" ∈ active || v.noexecAbove attempt.job)

/-- `_forced_on_held_units`. -/
def forcedOnHeldUnits : Bool := attempt.force && "held" ∈ active && "FAILED" ∈ active

/-- What an attempt past its gates comes to, on a side of its window. -/
def pastGates (nested : Nat) (box : Bool) (window : WindowSide) : StartVerdict :=
  if window ≠ .inside then skipped attempt active v window
  else if MAX_NESTED_STARTS ≤ nested then .bounded
  else if v.settlementOwed attempt.job then .settleFirst
  else if bypassesOnNoexec attempt active v box then .bypass
  else if forcedOnHeldUnits attempt active then .onHeld
  else if v.admissible attempt.job attempt.force then .admits
  else .queue

/-- A decided attempt reads the window alone. -/
def decidedVerdict (window : WindowSide) : StartVerdict :=
  if window = .inside || liveOrQueuedIn active then .ignored
  else skipped attempt active v window

/-- The side of the attempt's window. -/
def windowOf : Option WindowSide := (v.windowSide attempt.job).map (·.1)

end Attempt

/-- `start_verdict`. -/
def startVerdict (ctx : Ctx) (attempt : StartFacts) (v : View) : Option StartVerdict :=
  let active := ctx.active
  let data := dataOf ctx
  if attempt.decided then (windowOf attempt v).map (decidedVerdict attempt active v)
  else if superseded attempt active then some .refused
  else if attempt.rescan || !data.catalog then some .ignored
  else if liveOrQueuedIn active then some (if attempt.explicit then .refused else .ignored)
  else
    match if attempt.force then none else gated attempt active v with
    | some verdict => some verdict
    | none => (windowOf attempt v).map (pastGates attempt active v (nestedStarts ctx) data.box)

/-- The window a verdict read, if it read it: `known("window")` and `known("next_open")`. -/
def windowRead (active : Finset Name) (attempt : StartFacts) (v : View) :
    Option (WindowSide × Option Instant) :=
  if attempt.decided then v.windowSide attempt.job
  else if superseded attempt active || attempt.rescan || (v.ir? attempt.job).isNone ||
      liveOrQueuedIn active || (!attempt.force && (gated attempt active v).isSome) then none
  else v.windowSide attempt.job

/-- The attempt of the item has a verdict. -/
def startIs (verdict : StartVerdict) (ctx : Ctx) (w : World) : Bool :=
  match ctx.event.payload with
  | .start attempt => startVerdict ctx attempt w.view = some verdict
  | _ => false

/-! ## A readmission -/

inductive ReadmitVerdict where
  | admits | cancel | leave | keep
deriving DecidableEq, Repr

/-- `readmit_verdict`. -/
def readmitVerdict (ctx : Ctx) (scan : ReadmitFacts) (v : View) : Option ReadmitVerdict :=
  if v.readmitBox scan.job = some false then some (if scan.keepStopped then .keep else .cancel)
  else if "hold_on" ∈ ctx.active || !v.admissible scan.job false then some .keep
  else (v.queuedRecheck scan.job).map fun failed => if failed.isSome then .leave else .admits

def readmitIs (verdict : ReadmitVerdict) (ctx : Ctx) (w : World) : Bool :=
  match ctx.event.payload with
  | .readmission scan => readmitVerdict ctx scan w.view = some verdict
  | _ => false

/-! ## The arm -/

/-- The job whose arm a payload reads. -/
def Payload.armJob : Payload → Option String
  | armed job => some job
  | rule r => some r.job
  | runStart r => some r.job
  | readmission f => some f.job
  | _ => none

/-- `armed`. -/
def armed (ctx : Ctx) (w : World) : Bool := ctx.event.payload.armJob.any w.view.armed

/-- `unarmed`. -/
def unarmed (ctx : Ctx) (w : World) : Bool := ctx.event.payload.armJob.any (!w.view.armed ·)

/-! ## The data -/

/-- `is_box`. -/
def isBox (ctx : Ctx) : Bool := (dataOf ctx).box

/-- `in_catalog`. -/
def inCatalog (ctx : Ctx) : Bool := (dataOf ctx).catalog

/-! ## The admitted start -/

/-- `_admitted_verdict`. -/
def admittedIs (verdict : Admitting) (ctx : Ctx) : Bool :=
  match ctx.event.payload with
  | .admitted a => a.verdict = verdict
  | _ => false

/-- `admitted_by_start`. -/
def admittedByStart (ctx : Ctx) : Bool :=
  match ctx.event.payload with
  | .admitted _ => true
  | _ => false

/-! ## STATUS -/

/-- What the guards of STATUS read of its payload. -/
def injection (p : StatusInput → Bool) (ctx : Ctx) : Bool :=
  match ctx.event.payload with
  | .statusInput i => p i
  | _ => false

/-- `_INJECTABLE`: every status but QUE_WAIT. -/
def injectable (status : JobStatus) : Bool := status ≠ .queWait

/-- `injects`. -/
def injects (ctx : Ctx) : Bool :=
  injection (fun i => i.status.any fun s => injectable s && (s ≠ .inactive || !inCatalog ctx)) ctx

def injected (status : JobStatus) : Ctx → Bool := injection fun i => i.status = some status

/-! ## The flags -/

/-- `queued`. -/
def queued (ctx : Ctx) : Bool := "QUE_WAIT" ∈ ctx.active

/-- `noexec_own_reason`. -/
def noexecOwnReason (active : Finset Name) (box : Bool) : Option String :=
  if "ice_on" ∈ active then some "the job is ON_ICE"
  else if "RUNNING" ∈ active then some "the job is RUNNING"
  else if !box && "STARTING" ∈ active then some "the job is STARTING"
  else none

/-- What the guards of ON_NOEXEC read of its payload's job. -/
def noexecFact (p : String → Bool) (ctx : Ctx) : Bool :=
  match ctx.event.payload with
  | .noexec job => p job
  | _ => false

/-- `noexec_ignored`. -/
def noexecIgnored (ctx : Ctx) (w : World) : Bool :=
  (noexecOwnReason ctx.active (isBox ctx)).isSome ||
    (isBox ctx && noexecFact w.view.treeBusy ctx)

/-- `noexec_settles_job`. -/
def noexecSettlesJob (ctx : Ctx) (w : World) : Bool :=
  !noexecIgnored ctx w && inCatalog ctx && !isBox ctx

/-- `noexec_settles_box`. -/
def noexecSettlesBox (ctx : Ctx) (w : World) : Bool :=
  !noexecIgnored ctx w && isBox ctx &&
    ("INACTIVE" ∉ ctx.active || noexecFact w.view.noexecChange ctx)

/-! ## The box's rules -/

/-- The run a payload names is the row's. -/
def currentRun (ctx : Ctx) (w : World) : Bool :=
  match ctx.event.payload with
  | .deadline _ current => current
  | .started facts => w.view.startedCurrent facts
  | _ => false

def Target.state : Target → Name
  | success => "SUCCESS"
  | failure => "FAILURE"

/-- `_RECOMPUTED`. -/
def recomputed : List Name := ["INACTIVE", "QUE_WAIT", "SUCCESS", "FAILURE"]

def verdictOf (ctx : Ctx) (w : World) : Option Target × Bool :=
  match ctx.event.payload with
  | .recompute facts => w.view.recompute facts
  | _ => (none, false)

/-- `_recomputes`. -/
def recomputes (ctx : Ctx) (w : World) : Bool :=
  isBox ctx && recomputed.any (· ∈ ctx.active) &&
    (verdictOf ctx w).1.any fun target => target.state ∉ ctx.active

/-- `_box_verdict`. -/
def boxVerdict (target : Target) (override : Bool) (ctx : Ctx) (w : World) : Bool :=
  recomputes ctx w && verdictOf ctx w = (some target, override)

/-- `live_or_terminated_box`. -/
def liveOrTerminatedBox (ctx : Ctx) : Bool :=
  isBox ctx && ("LIVE" ∈ ctx.active || "TERMINATED" ∈ ctx.active)

/-- What the guards of the door read of its payload. -/
def doorFact (p : DoorFacts → Bool) (ctx : Ctx) : Bool :=
  match ctx.event.payload with
  | .door facts => p facts
  | _ => false

/-- The overrides' verdict of the visit. -/
def overrideIs (target : Option Target) (ctx : Ctx) (w : World) : Bool :=
  doorFact (w.view.overrideTarget · = target) ctx

/-- The fold's verdict of the visit. -/
def foldIs (target : Option Target) (ctx : Ctx) (w : World) : Bool :=
  doorFact (w.view.foldTarget ·.box = target) ctx

/-- `terminator_fires`. -/
def terminatorFires (ctx : Ctx) : Bool :=
  match ctx.event.payload with
  | .memberEnd e => isBox ctx && e.fires
  | _ => false

/-! ## The units -/

/-- `has_demand`. -/
def hasDemand (ctx : Ctx) : Bool :=
  match ctx.event.payload with
  | .admission a => a.demand
  | _ => false

/-- `on_held_units`. -/
def onHeldUnits (ctx : Ctx) : Bool :=
  match ctx.event.payload with
  | .admission a => a.onHeld
  | _ => false

def releaseIs (release : Release) (ctx : Ctx) (w : World) : Bool :=
  match ctx.event.payload with
  | .settlement s => w.view.release s.job s.success = release
  | _ => false

/-! ## The registry -/

/-- A guard that reads the context alone. -/
def reads (p : Ctx → Bool) : Guard Key Payload World := fun ctx _ => p ctx

/-- `GUARDS`. -/
def GUARDS : List (Name × Guard Key Payload World) := [
  ("start_refused", startIs .refused),
  ("start_moves_nothing", startIs .ignored),
  ("start_arms", startIs .arm),
  ("start_bounded", startIs .bounded),
  ("start_settles_first", startIs .settleFirst),
  ("start_bypasses", startIs .bypass),
  ("start_admits_job", fun ctx w => startIs .admits ctx w && !isBox ctx),
  ("start_admits_box", fun ctx w => startIs .admits ctx w && isBox ctx),
  ("start_queues", startIs .queue),
  ("start_on_held", startIs .onHeld),
  ("start_skips", startIs .skip),
  ("start_skips_member", startIs .skipMember),
  ("start_skips_inactive_member", startIs .skipInactiveMember),
  ("readmit_admits", readmitIs .admits),
  ("readmit_cancels", readmitIs .cancel),
  ("readmit_leaves_armed", fun ctx w => readmitIs .leave ctx w && armed ctx w),
  ("readmit_leaves_unarmed", fun ctx w => readmitIs .leave ctx w && unarmed ctx w),
  ("readmit_keeps", readmitIs .keep),
  ("admitted_bypass", reads (admittedIs .bypass)),
  ("admitted_queue", reads (admittedIs .queue)),
  ("admitted_on_held", reads (admittedIs .onHeld)),
  ("admitted_admit", reads (admittedIs .admits)),
  ("admitted_by_start", reads admittedByStart),
  ("admitted_by_readmit", reads fun ctx => !admittedByStart ctx),
  ("exit_success", reads (injection fun i => i.status.isNone && i.success)),
  ("exit_failure", reads (injection fun i => i.status.isNone && !i.success)),
  ("injects", reads injects),
  ("injects_inactive_job", reads fun ctx => injected .inactive ctx && inCatalog ctx && !isBox ctx),
  ("injects_inactive_box", reads fun ctx => injected .inactive ctx && isBox ctx),
  ("injects_live", reads (injection fun i => i.status.any (·.live))),
  ("injects_hold", reads (injection (·.hold))),
  ("injected_inactive", reads (injected .inactive)),
  ("injected_starting", reads (injected .starting)),
  ("injected_running", reads (injected .running)),
  ("injected_success", reads (injected .success)),
  ("injected_failure", reads (injected .failure)),
  ("not_live", reads fun ctx => "LIVE" ∉ ctx.active),
  ("force_clears", reads fun ctx => inCatalog ctx && !liveOrQueuedIn ctx.active),
  ("queued", reads queued),
  ("not_live_or_queued", reads fun ctx => !liveOrQueuedIn ctx.active),
  ("not_queued", reads fun ctx => !queued ctx),
  ("armed", armed),
  ("unarmed", unarmed),
  ("noexec_ignored", noexecIgnored),
  ("noexec_applies", fun ctx w => !noexecIgnored ctx w),
  ("noexec_settles_job", noexecSettlesJob),
  ("noexec_settles_box", noexecSettlesBox),
  ("noexec_moves_nothing", fun ctx w => !noexecIgnored ctx w && !noexecSettlesBox ctx w),
  ("is_box", reads isBox),
  ("is_job", reads fun ctx => !isBox ctx),
  ("is_terminator", reads fun ctx => (dataOf ctx).jobTerminator),
  ("has_auto_hold", reads fun ctx => (dataOf ctx).autoHold),
  ("in_catalog", reads inCatalog),
  ("left_catalog", reads fun ctx => !inCatalog ctx),
  ("current_run", currentRun),
  ("started_job", fun ctx w => !isBox ctx && currentRun ctx w),
  ("started_box", fun ctx w => isBox ctx && currentRun ctx w),
  ("door_reads_overrides", reads fun ctx => isBox ctx && doorFact (·.overrides) ctx),
  ("door_folds_only", reads fun ctx => isBox ctx && doorFact (!·.overrides) ctx),
  ("override_success", overrideIs (some .success)),
  ("override_failure", overrideIs (some .failure)),
  ("override_unmet_folds", fun ctx w => overrideIs none ctx w && doorFact (·.folds) ctx),
  ("override_unmet_settles", fun ctx w => overrideIs none ctx w && doorFact (!·.folds) ctx),
  ("fold_success", foldIs (some .success)),
  ("fold_failure", foldIs (some .failure)),
  ("fold_decides_nothing", foldIs none),
  ("overrides_success", boxVerdict .success true),
  ("overrides_failure", boxVerdict .failure true),
  ("recomputes_nothing", fun ctx w =>
    isBox ctx && !recomputes ctx w && !liveOrTerminatedBox ctx),
  ("live_or_terminated_box", reads liveOrTerminatedBox),
  ("derives_success", boxVerdict .success false),
  ("derives_failure", boxVerdict .failure false),
  ("terminator_fires", reads terminatorFires),
  ("has_demand", reads hasDemand),
  ("no_demand", reads fun ctx => !hasDemand ctx),
  ("takes_over", reads fun ctx => !onHeldUnits ctx),
  ("on_held_units", reads onHeldUnits),
  ("frees_all", releaseIs .free),
  ("keeps_held", releaseIs .keep),
  ("spends", releaseIs .spend)]

end Dsl41.Oracle
