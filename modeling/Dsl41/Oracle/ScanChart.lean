import Dsl41.Oracle.Cascade

/-!
# The queue's scan

The `queue_scan` chart, the coordinator of the scan. The record of the scan in flight is the
world's: a pass begins with the mode its `scan` asks, and a pass that follows another one keeps
the record's.
-/

namespace Dsl41.Oracle

open Dsl41.Infra Dsl41.Store
open Dsl41.StateMachine (Guard Name Statechart State Region Row Branch Choice COMPLETION)

/-! ## The record -/

/-- `ScanFacts.queued`: the first waiter from the turn on that is queued now. -/
def World.foundWaiter (w : World) : Option Nat :=
  let scan := w.cascade.scan
  (List.range' scan.turn (scan.waiters.length - scan.turn)).find? fun at_ =>
    (scan.waiters[at_]?).any fun job => w.view.status job = .queWait

/-- The world with another record of the scan. -/
def World.setScan (w : World) (scan : ScanRecord) : World :=
  { w with cascade := { w.cascade with scan } }

/-- The mode of a pass: its event's, or the record's. -/
def passMode (w : World) : Payload → Name → Option Bool
  | .scan keepStopped, name => some (if name = SCAN then keepStopped else w.cascade.scan.keepStopped)
  | _, _ => none

/-! ## Guards and actions -/

/-- `pass_upgrades`. -/
def passUpgrades (ctx : Ctx) (w : World) : Bool :=
  w.cascade.scan.keepStopped && "full_requested" ∈ ctx.active

/-- The guards of the chart. -/
def SCAN_GUARDS : List (Name × Guard Key Payload World) := [
  ("waiter_queued", fun _ w => w.foundWaiter.isSome),
  ("waiter_moved", fun _ w => w.cascade.readmitted),
  ("waiter_stayed", fun _ w => !w.cascade.readmitted),
  ("pass_upgrades", passUpgrades),
  ("pass_restarts", fun ctx w => w.cascade.readmitted && !passUpgrades ctx w),
  ("scan_ends", fun ctx w => !w.cascade.readmitted && !passUpgrades ctx w)]

/-- `begins_pass`: the waiters' order read now, from the first turn. -/
def beginsPass : JobAction := fun ctx w =>
  match passMode w ctx.event.payload ctx.event.name with
  | none => (none, w.raise (.hook "" "a scan with no record"))
  | some keepStopped =>
    (some { intents := [.intent (.scanState false), .intent .clearReadmitted] },
      w.setScan { keepStopped, waiters := w.pool.sortedWaiters w.view.rows, turn := 0 })

/-- The readmission of a waiter, with the batch of a box. -/
def readmission (v : View) (job : String) (keepStopped : Bool) : Consequences where
  send := [sendTo job READMIT (.readmission { job, keepStopped, batch := (v.startBatch job).1 })]
  batches := (v.startBatch job).2

/-- `readmits`: the turn found, and its waiter's `readmit`. -/
def readmits : JobAction := fun _ w =>
  match w.foundWaiter with
  | none => (none, w.raise (.hook "" "a scan's turn with no waiter found queued"))
  | some at_ =>
    let scan := w.cascade.scan
    let job := scan.waiters.getD at_ ""
    let turned := w.setScan { scan with turn := at_ + 1 }
    if (w.view.ir? job).isNone then (none, turned.raise (.keyError job))
    else
      let c := readmission w.view job scan.keepStopped
      (some c.effects, turned.allocate c)

/-- `upgrades`. -/
def upgrades : JobAction := fun _ w =>
  (none, w.setScan { w.cascade.scan with keepStopped := false })

def SCAN_ACTIONS : List (Name × JobAction) :=
  [("begins_pass", beginsPass), ("readmits", readmits), ("upgrades", upgrades)]

/-! ## States and rows -/

/-- `ROOT`. -/
def SCAN_ROOT : State :=
  composite "queue_scan"
    [.mk "scan" "idle"
      [leaf "idle",
        .mk "pass"
          [.mk "turn" "next_waiter"
            [leaf "next_waiter", enters "awaiting_readmit" "readmits", leaf "done"],
          .mk "request" "no_request" [leaf "no_request", leaf "full_requested"]]
          "begins_pass" "" [] false [] ""]]

/-- `ROWS`. -/
def SCAN_ROWS : List Row := [
  moves "queue_scan.01" "idle" SCAN "pass",
  moves "queue_scan.02" "no_request" SCAN "full_requested",
  keeps "queue_scan.03" "full_requested" SCAN,
  moves "queue_scan.04" "next_waiter" COMPLETION "turn_choice",
  moves "queue_scan.05" "awaiting_readmit" COMPLETION "done" "waiter_moved",
  moves "queue_scan.06" "awaiting_readmit" COMPLETION "turn_choice" "waiter_stayed",
  moves "queue_scan.07" "done" COMPLETION "pass" "pass_upgrades" "upgrades",
  moves "queue_scan.08" "done" COMPLETION "pass" "pass_restarts",
  moves "queue_scan.09" "done" COMPLETION "idle" "scan_ends"]

/-- `CHOICES`. -/
def SCAN_CHOICES : List Choice := [
  { name := "turn_choice"
    branches := [⟨"queue_scan.10", "awaiting_readmit", "waiter_queued", "", ""⟩,
      ⟨"queue_scan.11", "done", "", "", ""⟩] }]

/-- `IDLE`. -/
def SCAN_IDLE : Finset Name := {"queue_scan", "idle"}

/-- `QUEUE_SCAN`. -/
def QUEUE_SCAN : Statechart Key Payload World where
  name := "queue_scan"
  root := SCAN_ROOT
  rows := SCAN_ROWS
  choices := SCAN_CHOICES
  guards := fun name => List.lookup name SCAN_GUARDS
  actions := fun name => List.lookup name SCAN_ACTIONS
  clock := .logical

end Dsl41.Oracle
