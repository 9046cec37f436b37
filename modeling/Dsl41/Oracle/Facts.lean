import Dsl41.Oracle.Schedule

/-!
# The facts of the payloads

What a guard reads off a payload. The source computes a fact on its first read and keeps it; here
each read is made again, of the same view: the facts of one item are all read before the hook
writes, and those that a later item carries on (the demand vector; an attempt's gates across its
run's settlement; whether a box's tree is busy) are not moved in between.
-/

namespace Dsl41.Oracle

open Dsl41.Infra Dsl41.Store

/-- A box rule's verdict: the status it decides, or none. -/
inductive Target where
  | success | failure
deriving DecidableEq, Repr

namespace View

variable (v : View)

/-! ## A start attempt -/

/-- `StartFacts.dated`: the job has date conditions. -/
def dated (job : String) : Bool := ((v.ir? job).bind (·.schedule)).isSome

/-- `RowUnits.armed`. -/
def armed (job : String) : Bool := (v.row job).armed

/-- `StartFacts.box`. -/
def boxGate (job : String) : BoxGate :=
  match v.boxOf job with
  | none => .none
  | some box =>
    let row := v.row box
    if row.status ≠ .running then .idle
    else if job ∈ row.ranMembers then .ran
    else if job ∈ row.icedOutMembers then .icedOut
    else .running

/-- `StartFacts.condition`. -/
def condition (job : String) : Bool :=
  match (v.ir? job).bind (·.sem.condition) with
  | none => true
  | some c => v.condTrue c job

/-- The late settlements registered for a job whose run is the row's and that did not settle
early. -/
def owedSettlements (job : String) : List MoveId :=
  ((v.cascade.late.get? job).getD []).filter fun id =>
    (v.cascade.moves[id]?).any fun m => m.run = (v.row job).runNumber && !m.done

/-- `StartFacts.settlement_owed`. -/
def settlementOwed (job : String) : Bool := v.owedSettlements job ≠ []

/-- `StartFacts.demand` and `ReadmitFacts.demand`. -/
def demand (job : String) : Bool := toReservations (v.demandVector job) ≠ []

/-! ## Units -/

/-- `RowUnits.release`. -/
def release (job : String) (success : Bool) : Release :=
  match unreleased success (some v.pool.keepsHeld) (v.row job).reservations with
  | (_ :: _, _) => .keep
  | ([], _ :: _) => .spend
  | ([], []) => .free

/-- `job_data`. -/
def jobData (job : String) : JobData :=
  match v.ir? job with
  | none => { catalog := false }
  | some ir =>
    { box := ir.isBox, jobTerminator := ir.box.jobTerminator, autoHold := ir.sem.autoHold }

/-! ## ON_NOEXEC -/

/-- `NoexecFacts.tree_busy`. -/
def treeBusy (job : String) : Bool := (v.busyContained (v.contained job false)).isSome

/-- `NoexecFacts.change`. -/
def noexecChange (job : String) : Bool :=
  (v.boxOf job).any (fun parent => v.status parent = .running) ||
    (v.contained job false).any fun member => v.status member ≠ .inactive

/-! ## A readmission -/

/-- `ReadmitFacts.box`: none for a job in no box, else whether its box is RUNNING. -/
def readmitBox (job : String) : Option Bool :=
  (v.boxOf job).map fun box => v.status box = .running

/-! ## A box's verdicts -/

/-- `OverrideFacts.target`: box_success before box_failure, each only when the moment evaluates
it. -/
def overrideTarget (facts : DoorFacts) : Option Target :=
  let completed := facts.completion || facts.new.any JobStatus.terminal
  let met (attr : Option Cond) : Bool := attr.any fun c =>
    (facts.member.any (· ∈ namedJobs c) || completed) && v.condTrue c facts.box
  match v.ir? facts.box with
  | none => none
  | some ir =>
    if met ir.sem.boxSuccess then some .success
    else if met ir.sem.boxFailure then some .failure
    else none

/-- The members that vote in the default fold. -/
def foldVoters (box : String) : List String :=
  (v.members box).filter fun m => m ∈ (v.row box).ranMembers || v.votesAsItStands box m

/-- `FoldFacts.target`. -/
def foldTarget (box : String) : Option Target :=
  match v.ir? box with
  | none => none
  | some ir =>
    if !v.allMembersDone box then none
    else
      let anyFailed := (v.foldVoters box).any fun m => failed (v.status m)
      if !anyFailed && ir.sem.boxSuccess.isNone then some .success
      else if anyFailed && ir.sem.boxFailure.isNone then some .failure
      else none

/-- The members that vote in an idle box's recompute. -/
def recomputeVoters (box : String) : List String :=
  (v.members box).filter fun m =>
    v.status m ≠ .inactive && !(v.semantics.idleBoxIcedMember = .ignore && v.outOfTheRun m)

/-- `RecomputeFacts._recompute`: the status it decides, and whether an override decided it. -/
def recompute (facts : RecomputeFacts) : Option Target × Bool :=
  match v.ir? facts.box with
  | none => (none, false)
  | some ir =>
    let voters := v.recomputeVoters facts.box
    if v.semantics.idleBoxIcedMember = .ignore ∧ voters = [] ∧ v.outOfTheRun facts.trigger then
      (none, false)
    else if !voters.all (fun m => (v.status m).terminal) then (none, false)
    else if ir.sem.boxSuccess.any (v.condTrue · facts.box) then (some .success, true)
    else if ir.sem.boxFailure.any (v.condTrue · facts.box) then (some .failure, true)
    else
      let anyFailed := voters.any fun m => failed (v.status m)
      let suppressed := if anyFailed then ir.sem.boxFailure.isSome else ir.sem.boxSuccess.isSome
      (if suppressed then none else some (if anyFailed then .failure else .success), false)

/-- `Started.current`. -/
def startedCurrent (facts : Started) : Bool := (v.row facts.job).runNumber = facts.run

/-! ## Admissions -/

/-- `_frees_excess`: held units exceed the new demand on some bucket. -/
def freesExcess (job : String) (vector : List DemandEntry) : Bool :=
  (v.row job).reservations.any fun held =>
    heldUnits held.bucket (toReservations vector) < held.units

/-- `OracleCascade._readmission`. -/
def readmission (facts : ReadmitFacts) : AdmissionFacts where
  job := facts.job
  demand := v.demand facts.job
  vector := v.demandVector facts.job
  cause := "resources freed (QUE_WAIT admitted, DL-50)"
  hadDemand := true
  batch := facts.batch

end View

end Dsl41.Oracle
