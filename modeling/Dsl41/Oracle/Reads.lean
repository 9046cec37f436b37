import Dsl41.Oracle.World

/-!
# The reads of the store and the catalog

What the guards and the moments ask: the truth of a condition, the tree of the boxes, whether a
member is out of its box's run, the admission test. A row that does not exist reads as the default
row.
-/

namespace Dsl41.Oracle

open Dsl41.Infra Dsl41.Store

/-- `LIVE_OR_QUEUED`. -/
def liveOrQueued (status : JobStatus) : Bool := status.live || status = .queWait

/-- `FAILED`. -/
def failed (status : JobStatus) : Bool := status = .failure || status = .terminated

namespace View

variable (v : View)

/-! ## Rows and the box tree -/

/-- `_runtime`. -/
def row (job : String) : JobFields Instant := (v.rows.get? job).getD {}

/-- `_status`. -/
def status (job : String) : JobStatus := (v.row job).status

def ir? (job : String) : Option JobIR := v.catalog.jobs.get? job

/-- `_is_box`. -/
def isBox (job : String) : Bool := (v.ir? job).any JobIR.isBox

/-- The box a job is a member of. -/
def boxOf (job : String) : Option String := (v.ir? job).bind (·.box.boxName)

/-- `_members`: the jobs a box holds directly, in catalog order. -/
def members (box : String) : List String :=
  (v.catalog.jobs.entries.filter fun e => e.2.box.boxName = some box).map (·.1)

/-- `_referencers`: the jobs whose condition names an entity, in catalog order. -/
def referencers (key : String) : List String :=
  (v.catalog.jobs.entries.filter fun e => e.2.sem.condition.any fun c => key ∈ entityKeys c).map (·.1)

/-- One more than the catalog's jobs: enough for every walk of the box tree. -/
def size : Nat := v.catalog.jobs.entries.length + 1

def ancestorsFrom : Nat → List String → Option String → List String
  | 0, _, _ => []
  | _, _, none => []
  | n + 1, seen, some box =>
    if box ∈ seen then [] else box :: ancestorsFrom n (box :: seen) (v.boxOf box)

/-- `_ancestor_boxes`: the containing boxes, innermost first. -/
def ancestorBoxes (job : String) : List String := v.ancestorsFrom v.size [job] (v.boxOf job)

/-- `_ancestor_runs`. -/
def ancestorRuns (job : String) : Runs :=
  (v.ancestorBoxes job).map fun box => (box, (v.row box).runNumber)

def containedFrom (skipLive : Bool) : Nat → List String → List String → List String
  | 0, _, _ => []
  | _, [], _ => []
  | n + 1, box :: pending, seen =>
    let fresh := (v.members box).filter (· ∉ seen)
    let out := fresh.filter fun m => !(skipLive && liveOrQueued (v.status m))
    out ++ containedFrom skipLive n (pending ++ out.filter v.isBox) (seen ++ fresh)

/-- `_contained`: every job a box contains, a subbox before its members. -/
def contained (box : String) (skipLive : Bool) : List String :=
  v.containedFrom skipLive v.size [box] [box]

/-- `_lifts_a_block`. -/
def liftsABlock (old new : JobStatus) : Bool := old = .queWait && new ≠ .queWait && new ≠ .starting

/-- `_box_stopped`. -/
def boxStopped (job : String) (old new : JobStatus) : Bool :=
  old = .running && new ≠ .running && v.isBox job

/-- `_in_run`. -/
def inRun (box : String) (run : Int) : Bool := (v.row box).status = .running && (v.row box).runNumber = run

/-! ## Conditions -/

/-- `_lookback_ok`. A zero lookback compares the two last ends. -/
def lookbackOk (row : JobFields Instant) (lookback : Option Lookback) (evaluator : String) : Bool :=
  match lookback with
  | none | some .indefinite => true
  | some .zero =>
    row.statusAt.isSome &&
      match (v.rows.get? evaluator).bind (·.lastEndAt) with
      | none => true
      | some anchor => row.lastEndAt.any (anchor ≤ ·)
  | some (.window minutes) =>
    match row.statusAt, v.now with
    | some at_, some now => now - minutes * 60000000 ≤ at_
    | _, _ => false

/-- The status an atom wants is the row's. -/
def statusHit (wanted : AtomStatus) (actual : JobStatus) : Bool :=
  match wanted with
  | .done => actual.terminal
  | .notRunning => !actual.live
  | .success => actual = .success
  | .failure => actual = .failure
  | .terminated => actual = .terminated

/-- `_atom_true`, for a status atom. -/
def statusAtomTrue (a : StatusAtom) (evaluator : String) : Bool :=
  match v.rows.get? a.job.key with
  | none => false
  | some row =>
    if row.onIce then icedStatusTruth a v.semantics.iceLookback
    else
      statusHit a.status row.status &&
        ((a.status = .notRunning && row.statusAt = none) || v.lookbackOk row a.lookback evaluator)

/-- `_atom_true`, for an exit-code atom. -/
def exitCodeAtomTrue (a : ExitCodeAtom) (evaluator : String) : Bool :=
  match v.rows.get? a.job.key with
  | none => false
  | some row =>
    if row.onIce then icedExitCodeTruth a v.semantics.iceLookback
    else row.exitCode.any fun code =>
      v.lookbackOk row a.lookback evaluator && compareInt code a.op a.value

def atomTrue (evaluator : String) : Atom → Bool
  | .status a => v.statusAtomTrue a evaluator
  | .exitCode a => v.exitCodeAtomTrue a evaluator
  | .global a => (v.globals.get? a.name).any fun actual => compareValue actual a.op a.value

/-- `_cond_true`. -/
def condTrue (c : Cond) (evaluator : String) : Bool := c.holds (v.atomTrue evaluator)

/-! ## Boxes -/

/-- `_noexec_above`. -/
def noexecAbove (job : String) : Bool := (v.ancestorBoxes job).any fun box => (v.row box).onNoexec

/-- `_out_of_the_run`: an iced job with nothing in it live or queued. -/
def outOfTheRun (job : String) : Bool :=
  (v.row job).onIce && !liveOrQueued (v.status job) &&
    (v.contained job false).all fun inner => !liveOrQueued (v.status inner)

/-- `_box_terminator_fires`. -/
def boxTerminatorFires (member : String) (new : JobStatus) : Bool :=
  (v.ir? member).any fun ir =>
    ir.box.boxTerminator &&
      (if new = .terminated then v.semantics.boxTerminatorOnTerminated else new = .failure)

/-- `_resolves`. -/
def resolves (box member : String) (old new : JobStatus) : Bool :=
  let boxRow := v.row box
  new = .inactive && boxRow.status = .running &&
    (member ∈ boxRow.windowSkippedMembers ||
      (old = .queWait && (v.row member).onIce && member ∉ boxRow.ranMembers))

/-- `_votes_as_it_stands`. -/
def votesAsItStands (box member : String) : Bool :=
  member ∉ (v.row box).ranMembers && (v.status member).terminal && !v.outOfTheRun member

/-- A member is done: out of the run, sitting it out, resolved, or terminal. -/
def memberDone (box member : String) : Bool :=
  let boxRow := v.row box
  let status := v.status member
  v.outOfTheRun member ||
    (member ∈ boxRow.icedOutMembers && !liveOrQueued status) ||
    (member ∈ boxRow.windowSkippedMembers && !liveOrQueued status) ||
    status.terminal

/-- `_all_members_done`. -/
def allMembersDone (box : String) : Bool := (v.members box).all (v.memberDone box)

/-- `_busy_contained`: why a box's contained jobs make its ON_NOEXEC ignored. -/
def busyContained (contained : List String) : Option String :=
  contained.findSome? fun member =>
    let row := v.row member
    if row.onIce then some ("contained job " ++ quoted member ++ " is ON_ICE")
    else if liveOrQueued row.status then
      some ("contained job " ++ quoted member ++ " is " ++ statusName row.status)
    else none

/-! ## Admission -/

/-- `_counts_as_waiter`. -/
def countsAsWaiter (waiter : String) : Bool :=
  !(v.row waiter).onHold && (v.ir? waiter).any fun ir =>
    ir.box.boxName.all fun box => v.status box = .running

/-- The demand vector of a job; empty for one the catalog does not define. -/
def demandVector (job : String) : List DemandEntry :=
  match v.ir? job with
  | some ir => v.pool.demandVector ir
  | none => []

/-- `_admissible`. -/
def admissible (job : String) (force : Bool) : Bool :=
  (v.ir? job).any fun ir =>
    let vector := v.pool.demandVector ir
    if v.pool.resourceBlocked job ir v.rows v.consumed v.countsAsWaiter then false
    else if force || !checksLoad ir then
      v.pool.canAdmit (withoutMachineLoad vector) v.rows v.consumed job
    else
      !v.pool.loadBlocked job ir (usedUnits v.rows v.consumed none) v.rows v.countsAsWaiter &&
        v.pool.canAdmit vector v.rows v.consumed job

end View

end Dsl41.Oracle
